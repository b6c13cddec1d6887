import Adabt.Engine.Sharded
import Adabt.Testkit.Databases

/-! # Shards against the reference

A record lives on the shard that its id names, and every shard holds every collection.
Shards that each answer as the reference store would that holds their records answer
together as the reference store that holds all of them. -/

set_option autoImplicit false

namespace Adabt.Testkit
open Adabt.Core Adabt.Engine Adabt.Library Adabt.Storage

/-! ## Parts of the reference store -/

namespace ReferenceStore

def Collection.part (n i : ℕ) (t : Collection) : Collection :=
  { t with records := t.records.filter fun id _ => shardOf id n = i }

/-- What one of several shards has of the store: the records that it owns. -/
def part (n i : ℕ) (r : ReferenceStore) : ReferenceStore :=
  ⟨r.collections.mapVal fun _ => Collection.part n i⟩

variable {n i : ℕ} {r : ReferenceStore} {name : String} {t : Collection} {id : RecordId}

@[simp] theorem get_part (n i : ℕ) (r : ReferenceStore) (name : String) :
    (r.part n i).collections.get name = (r.collections.get name).map (Collection.part n i) :=
  OrdMap.get_mapVal _ _ _

theorem part_new (n i : ℕ) : part n i .new = .new := rfl

theorem keys_part (n i : ℕ) (r : ReferenceStore) :
    (r.part n i).collections.keys = r.collections.keys := OrdMap.keys_mapVal _ _

theorem ext_collections {r s : ReferenceStore}
    (h : ∀ m, r.collections.get m = s.collections.get m) : r = s := by
  cases r
  cases s
  exact congrArg mk (OrdMap.ext_get h)

theorem part_put (n i : ℕ) (r : ReferenceStore) (name : String) (t : Collection) :
    (r.put name t).part n i = (r.part n i).put name (t.part n i) := by
  refine ext_collections fun m => ?_
  rw [get_part, put, put]
  dsimp only
  rw [OrdMap.get_insert, OrdMap.get_insert, get_part]
  split_ifs
  · rfl
  · rfl

theorem part_erase (n i : ℕ) (r : ReferenceStore) (name : String) :
    part n i ⟨r.collections.erase name⟩ = ⟨(r.part n i).collections.erase name⟩ := by
  refine ext_collections fun m => ?_
  rw [get_part]
  dsimp only
  rw [OrdMap.get_erase, OrdMap.get_erase, get_part]
  split_ifs
  · rfl
  · rfl

theorem get_records_part (t : Collection) (n i : ℕ) (id : RecordId) :
    (t.part n i).records.get id = (t.records.get id).filter fun _ => shardOf id n = i :=
  OrdMap.get_filter _ _ _

theorem get_records_own (t : Collection) (n : ℕ) (id : RecordId) :
    (t.part n (shardOf id n)).records.get id = t.records.get id := by
  rw [get_records_part]
  cases t.records.get id with
  | none => rfl
  | some row => exact Option.filter_some.trans (if_pos (decide_eq_true rfl))

/-- Where the records of one id change, the parts of the others stay. -/
theorem part_others {records : OrdMap RecordId Record} {j : ℕ} (hj : j ≠ shardOf id n)
    (h : ∀ x, x ≠ id → records.get x = t.records.get x) :
    Collection.part n j { t with records := records } = t.part n j := by
  unfold Collection.part
  dsimp only
  congr 1
  ext x : 1
  rw [OrdMap.get_filter, OrdMap.get_filter]
  by_cases hx : x = id
  · subst hx
    have hnot : ∀ o : Option Record, (o.filter fun _ => shardOf x n = j) = none := fun o =>
      Option.filter_eq_none_iff.mpr fun _ _ => by simp [hj.symm]
    rw [hnot, hnot]
  · rw [h x hx]

theorem part_insert (t : Collection) (n : ℕ) (id : RecordId) (row : Record) :
    Collection.part n (shardOf id n) { t with records := t.records.insert id row } =
      { t.part n (shardOf id n) with
        records := (t.part n (shardOf id n)).records.insert id row } := by
  unfold Collection.part
  dsimp only
  congr 1
  ext x : 1
  rw [OrdMap.get_filter, OrdMap.get_insert, OrdMap.get_insert, OrdMap.get_filter]
  split_ifs with hx
  · subst hx
    exact Option.filter_some.trans (if_pos (decide_eq_true rfl))
  · rfl

theorem part_erase_record (t : Collection) (n i : ℕ) (id : RecordId) :
    Collection.part n i { t with records := t.records.erase id } =
      { t.part n i with records := (t.part n i).records.erase id } := by
  unfold Collection.part
  dsimp only
  congr 1
  ext x : 1
  rw [OrdMap.get_filter, OrdMap.get_erase, OrdMap.get_erase, OrdMap.get_filter]
  split_ifs
  · rfl
  · rfl

/-! ## Calls on a part -/

/-- A call on one record is the call on the part that owns it, and leaves the others. -/
structure Owned {α : Type} (n : ℕ) (id : RecordId) (y : ReferenceM α) (r : ReferenceStore) :
    Prop where
  same : result y (r.part n (shardOf id n)) = result y r
  own : exec y (r.part n (shardOf id n)) = (exec y r).part n (shardOf id n)
  others : ∀ j, j ≠ shardOf id n → (exec y r).part n j = r.part n j

theorem run_ok {α : Type} {y : ReferenceM α} {a : α} {q : ReferenceStore}
    (h : Returns y r fun b s => b = a ∧ s = q) : y r = .ok a q := by
  obtain ⟨b, s, hy, rfl, rfl⟩ := h.exists
  exact hy

theorem run_error {α : Type} {y : ReferenceM α} {e : Error}
    (h : Post y r (fun _ _ => False) fun f s => f = e ∧ s = r) : y r = .error e r := by
  unfold Post at h
  cases hy : y r with
  | ok a s => simp [hy] at h
  | error f s =>
    rw [hy] at h
    rw [h.1, h.2]

theorem Owned.of_error {α : Type} {y : ReferenceM α} {e : Error}
    (h : ∀ s, s = r ∨ s = r.part n (shardOf id n) →
      Post y s (fun _ _ => False) fun f s' => f = e ∧ s' = s) : Owned n id y r := by
  have hr := run_error (h r (.inl rfl))
  have hp := run_error (h _ (.inr rfl))
  refine ⟨?_, ?_, fun _ _ => ?_⟩
  · rw [result, result, hr, hp]
  · rw [exec, exec, hr, hp]
  · rw [exec, hr]

theorem Owned.of_ok {α : Type} {y : ReferenceM α} {a : α} {u : Collection}
    (hothers : ∀ j, j ≠ shardOf id n → u.part n j = t.part n j)
    (hr : r.collections.get name = some t)
    (h : Returns y r fun b s => b = a ∧ s = r.put name u)
    (hp : Returns y (r.part n (shardOf id n)) fun b s =>
      b = a ∧ s = (r.part n (shardOf id n)).put name (u.part n (shardOf id n))) :
    Owned n id y r := by
  refine ⟨?_, ?_, fun j hj => ?_⟩
  · rw [result, result, run_ok h, run_ok hp]
  · rw [exec, exec, run_ok h, run_ok hp, part_put]
  · rw [exec, run_ok h]
    dsimp only
    rw [part_put, hothers j hj]
    exact put_self (by rw [get_part, hr, Option.map_some])

/-- Both stores have the collection, or neither has. -/
theorem get_either {s : ReferenceStore} (hs : s = r ∨ s = r.part n i)
    (hr : r.collections.get name = none) : s.collections.get name = none := by
  rcases hs with rfl | rfl
  · exact hr
  · rw [get_part, hr, Option.map_none]

/-- In both stores the collection has the same schema and the same record under the id. -/
theorem some_either {s : ReferenceStore} (hs : s = r ∨ s = r.part n (shardOf id n))
    (hr : r.collections.get name = some t) : ∃ u : Collection, s.collections.get name = some u ∧
      u.schema = t.schema ∧ u.records.get id = t.records.get id := by
  rcases hs with rfl | rfl
  · exact ⟨t, hr, rfl, rfl⟩
  · exact ⟨t.part n (shardOf id n), by rw [get_part, hr, Option.map_some], rfl,
      get_records_own t n id⟩

section Calls

variable (n : ℕ) (name : String) (id : RecordId) (rec : Record) (r : ReferenceStore)

theorem insert_owned : Owned n id (insert name id rec) r := by
  cases hr : r.collections.get name with
  | none =>
    refine .of_error (e := .noSuchCollection name) fun s hs => ?_
    rw [post_insert, get_either hs hr]
    exact ⟨rfl, rfl⟩
  | some t =>
    cases hv : t.schema.validateRecord (normalizeForStorage rec) with
    | error e =>
      refine .of_error (e := .schema e) fun s hs => ?_
      obtain ⟨u, hu, hschema, -⟩ := some_either hs hr
      rw [post_insert, hu]
      dsimp only
      rw [hschema, hv]
      exact ⟨rfl, rfl⟩
    | ok u =>
      cases hg : t.records.get id with
      | some row =>
        refine .of_error (e := .recordExists id) fun s hs => ?_
        obtain ⟨u, hu, hschema, hget⟩ := some_either hs hr
        rw [post_insert, hu]
        dsimp only
        rw [hschema, hv, hget, hg]
        exact ⟨rfl, rfl⟩
      | none =>
        refine .of_ok (a := ()) (t := t) (u := { t with
          records := t.records.insert id (normalizeForStorage rec) })
          (fun j hj => part_others hj fun x hx => OrdMap.get_insert_ne _ _ hx) hr ?_ ?_
        · rw [Returns, post_insert, hr]
          dsimp only
          rw [hv, hg]
          exact ⟨rfl, rfl⟩
        · rw [Returns, post_insert, get_part, hr, Option.map_some]
          dsimp only
          have hv' : (t.part n (shardOf id n)).schema.validateRecord (normalizeForStorage rec) =
            .ok u := hv
          rw [hv', get_records_own, hg, part_insert]
          exact ⟨rfl, rfl⟩

theorem update_owned : Owned n id (update name id rec) r := by
  cases hr : r.collections.get name with
  | none =>
    refine .of_error (e := .noSuchCollection name) fun s hs => ?_
    rw [post_update, get_either hs hr]
    exact ⟨rfl, rfl⟩
  | some t =>
    cases hv : t.schema.validateRecord (normalizeForStorage rec) with
    | error e =>
      refine .of_error (e := .schema e) fun s hs => ?_
      obtain ⟨u, hu, hschema, -⟩ := some_either hs hr
      rw [post_update, hu]
      dsimp only
      rw [hschema, hv]
      exact ⟨rfl, rfl⟩
    | ok u =>
      refine .of_ok (a := (t.records.get id).isSome) (t := t) (u := { t with
        records := t.records.insert id (normalizeForStorage rec) })
        (fun j hj => part_others hj fun x hx => OrdMap.get_insert_ne _ _ hx) hr ?_ ?_
      · rw [Returns, post_update, hr]
        dsimp only
        rw [hv]
        exact ⟨rfl, rfl⟩
      · rw [Returns, post_update, get_part, hr, Option.map_some]
        dsimp only
        have hv' : (t.part n (shardOf id n)).schema.validateRecord (normalizeForStorage rec) =
          .ok u := hv
        rw [hv', get_records_own, part_insert]
        exact ⟨rfl, rfl⟩

theorem delete_owned : Owned n id (delete name id) r := by
  cases hr : r.collections.get name with
  | none =>
    refine .of_error (e := .noSuchCollection name) fun s hs => ?_
    rw [post_delete, get_either hs hr]
    exact ⟨rfl, rfl⟩
  | some t =>
    refine .of_ok (a := (t.records.get id).isSome) (t := t) (u := { t with
      records := t.records.erase id })
      (fun j hj => part_others hj fun x hx => by rw [OrdMap.get_erase, if_neg hx]) hr ?_ ?_
    · rw [Returns, post_delete, hr]
      exact ⟨rfl, rfl⟩
    · rw [Returns, post_delete, get_part, hr, Option.map_some]
      dsimp only
      rw [get_records_own, part_erase_record]
      exact ⟨rfl, rfl⟩

theorem get_owned :
    ((r.part n (shardOf id n)).coll name).map (·.records.get id) =
      (r.coll name).map (·.records.get id) := by
  unfold coll
  rw [get_part]
  cases r.collections.get name with
  | none => rfl
  | some t => exact congrArg Except.ok (get_records_own t n id)

/-- A call on the tables is the same on every part. -/
theorem createCollection_part (schema : Schema) (i : ℕ) :
    result (createCollection name schema) (r.part n i) = result (createCollection name schema) r ∧
      exec (createCollection name schema) (r.part n i) =
        (exec (createCollection name schema) r).part n i := by
  cases hr : r.collections.get name with
  | some t =>
    have hfail : ∀ s : ReferenceStore, (s.collections.get name).isSome →
        createCollection name schema s = .error (.collectionExists name) s := fun s hs =>
      run_error (by
        obtain ⟨u, hu⟩ := Option.isSome_iff_exists.mp hs
        rw [post_createCollection, hu]
        exact ⟨rfl, rfl⟩)
    rw [result, result, exec, exec, hfail r (by rw [hr]; rfl),
      hfail (r.part n i) (by rw [get_part, hr]; rfl)]
    exact ⟨rfl, rfl⟩
  | none =>
    have hdone : ∀ s : ReferenceStore, s.collections.get name = none →
        createCollection name schema s = .ok () (s.put name ⟨schema, ∅⟩) := fun s hs =>
      run_ok (by
        rw [Returns, post_createCollection, hs]
        exact ⟨rfl, rfl⟩)
    rw [result, result, exec, exec, hdone r hr, hdone (r.part n i) (by rw [get_part, hr]; rfl)]
    dsimp only
    rw [part_put]
    exact ⟨rfl, rfl⟩

theorem dropCollection_part (i : ℕ) :
    result (dropCollection name) (r.part n i) = result (dropCollection name) r ∧
      exec (dropCollection name) (r.part n i) = (exec (dropCollection name) r).part n i := by
  cases hr : r.collections.get name with
  | none =>
    have hfail : ∀ s : ReferenceStore, s.collections.get name = none →
        dropCollection name s = .error (.noSuchCollection name) s := fun s hs =>
      run_error (by
        rw [post_dropCollection, hs]
        exact ⟨rfl, rfl⟩)
    rw [result, result, exec, exec, hfail r hr, hfail (r.part n i) (by rw [get_part, hr]; rfl)]
    exact ⟨rfl, rfl⟩
  | some t =>
    have hdone : ∀ s : ReferenceStore, (s.collections.get name).isSome →
        dropCollection name s = .ok () ⟨s.collections.erase name⟩ := fun s hs =>
      run_ok (by
        obtain ⟨u, hu⟩ := Option.isSome_iff_exists.mp hs
        rw [Returns, post_dropCollection, hu]
        exact ⟨rfl, rfl⟩)
    rw [result, result, exec, exec, hdone r (by rw [hr]; rfl),
      hdone (r.part n i) (by rw [get_part, hr]; rfl)]
    dsimp only
    rw [part_erase]
    exact ⟨rfl, rfl⟩

end Calls

end ReferenceStore

/-! ## The sharded store -/

variable {σ α β : Type}

/-- `open` makes no database of no shards. -/
structure Shards (σ : Type) where
  shards : List σ
  nonempty : 0 < shards.length

namespace Shards

/-- Every shard does it, and the first error in shard order is the answer. -/
def broadcast (f : ℕ → EStateM Error σ α) : EStateM Error (Shards σ) (List α) := fun s =>
  let done : Shards σ := ⟨s.shards.mapIdx fun i p => exec (f i) p, by
    rw [List.length_mapIdx]
    exact s.nonempty⟩
  match gather (s.shards.mapIdx fun i p => result (f i) p) with
  | .ok answers => .ok answers done
  | .error e => .error e done

def ask (f : ℕ → σ → Except Error α) (s : Shards σ) : Except Error (List α) :=
  gather (s.shards.mapIdx f)

def owner (s : Shards σ) (id : RecordId) : Fin s.shards.length :=
  ⟨shardOf id s.shards.length, Nat.mod_lt _ s.nonempty⟩

def put (s : Shards σ) (i : ℕ) (p : σ) : Shards σ :=
  ⟨s.shards.set i p, by
    rw [List.length_set]
    exact s.nonempty⟩

def onOwner (id : RecordId) (f : ℕ → EStateM Error σ α) : EStateM Error (Shards σ) α := fun s =>
  match f (s.owner id) (s.shards.get (s.owner id)) with
  | .ok a p => .ok a (s.put (s.owner id) p)
  | .error e p => .error e (s.put (s.owner id) p)

end Shards

/-- Shards behind the logical API, each in a directory of its own. -/
def shardedStore (S : ℕ → LogicalStore σ) : LogicalStore (Shards σ) where
  createCollection name schema :=
    Shards.broadcast (fun i => (S i).createCollection name schema) >>= fun _ => pure ()
  dropCollection name :=
    Shards.broadcast (fun i => (S i).dropCollection name) >>= fun _ => pure ()
  collectionNames s := (S 0).collectionNames (s.shards.get ⟨0, s.nonempty⟩)
  schemaOf _ _ := .error (.invalidOptimization
    "schema_of borrows from a shard; use shard(i) and ask it directly")
  insert c id rec := Shards.onOwner id fun i => (S i).insert c id rec
  get s c id := (S (s.owner id)).get (s.shards.get (s.owner id)) c id
  update c id rec := Shards.onOwner id fun i => (S i).update c id rec
  delete c id := Shards.onOwner id fun i => (S i).delete c id
  scan s c := do
    let perShard ← s.ask fun i p => (S i).scan p c
    return mergeById perShard
  count s c := do
    let counts ← s.ask fun i p => (S i).count p c
    return counts.sum
  -- Shards own no ranges of ids, so their ids put together are in shard order.
  ids s c := do
    let perShard ← s.ask fun i p => (S i).ids p c
    return perShard.flatten.insertionSort (· ≤ ·)

/-! ## Simulation -/

/-- Each shard is related to its part of the reference. -/
def Split (I : ℕ → σ → ReferenceStore → Prop) (s : Shards σ) (r : ReferenceStore) : Prop :=
  ∀ i (h : i < s.shards.length), I i s.shards[i] (r.part s.shards.length i)

/-- The record that a call is about, and the call that its owner gets. -/
def Logical.routed : Logical → Option (RecordId × Logical)
  | .op (.insert name id rec) | .insertKeyed name id rec _ => some (id, .op (.insert name id rec))
  | .op (.get name id) => some (id, .op (.get name id))
  | .op (.update name id rec) => some (id, .op (.update name id rec))
  | .op (.delete name id) => some (id, .op (.delete name id))
  | _ => none

def Logical.asksSchema : Logical → Bool
  | .schemaOf _ => true
  | _ => false

/-- A call goes to the owner of its record, or to every shard. No shard's schema is given out. -/
def ShardsAdmitted (A : ℕ → Logical → σ → Prop) (c : Logical) (s : Shards σ) : Prop :=
  (∀ w ∈ c.routed, A (s.owner w.1) w.2 (s.shards.get (s.owner w.1))) ∧
    (c.routed.isNone → c.asksSchema = false ∧ ∀ i (h : i < s.shards.length), A i c s.shards[i])

instance (A : ℕ → Logical → σ → Prop) [∀ i c p, Decidable (A i c p)] (c : Logical)
    (s : Shards σ) : Decidable (ShardsAdmitted A c s) := by
  unfold ShardsAdmitted
  infer_instance

section Simulation

variable {S : ℕ → LogicalStore σ} {I : ℕ → σ → ReferenceStore → Prop}
  {A : ℕ → Logical → σ → Prop} {s : Shards σ} {r : ReferenceStore}

theorem Shards.post_onOwner (id : RecordId) (f : ℕ → EStateM Error σ α) (s : Shards σ) :
    result (Shards.onOwner id f) s = result (f (s.owner id)) (s.shards.get (s.owner id)) ∧
      exec (Shards.onOwner id f) s =
        s.put (s.owner id) (exec (f (s.owner id)) (s.shards.get (s.owner id))) := by
  unfold Shards.onOwner result exec
  dsimp only
  cases f (s.owner id) (s.shards.get (s.owner id)) with
  | ok a p => exact ⟨rfl, rfl⟩
  | error e p => exact ⟨rfl, rfl⟩

/-- The owner of a record does the call, and the other shards stay related as they were. -/
theorem Split.onOwner (hs : Split I s r) {id : RecordId} {f : ℕ → EStateM Error σ α}
    {y : ReferenceStore.ReferenceM α} (hy : ReferenceStore.Owned s.shards.length id y r)
    (ok : α → OpOutcome)
    (hf : (OpOutcome.wrap (result (f (s.owner id)) (s.shards.get (s.owner id))) ok).Eqv
        (.wrap (result y (r.part s.shards.length (s.owner id))) ok) ∧
      I (s.owner id) (exec (f (s.owner id)) (s.shards.get (s.owner id)))
        (exec y (r.part s.shards.length (s.owner id)))) :
    (OpOutcome.wrap (result (Shards.onOwner id f) s) ok).Eqv (.wrap (result y r) ok) ∧
      Split I (exec (Shards.onOwner id f) s) (exec y r) := by
  obtain ⟨hresult, hexec⟩ := Shards.post_onOwner id f s
  have howner : (s.owner id : ℕ) = shardOf id s.shards.length := rfl
  rw [hresult, hexec]
  rw [howner, hy.same, hy.own] at hf
  refine ⟨hf.1, fun i hi => ?_⟩
  change i < (s.shards.set _ _).length at hi
  rw [List.length_set] at hi
  change I i (s.shards.set _ _)[i] ((exec y r).part (s.shards.set _ _).length i)
  rw [List.length_set]
  by_cases heq : i = s.owner id
  · subst heq
    rw [List.getElem_set_self]
    exact hf.2
  · rw [List.getElem_set_ne (Ne.symm heq), hy.others i heq]
    exact hs i hi

/-! ### Calls on every shard -/

theorem outcome_unit {x : Except Error α} {y : Except Error Unit}
    (h : (OpOutcome.wrap x fun _ => .unit).Eqv (.wrap y fun _ => .unit)) :
    (∀ u, y = .ok u → ∃ a, x = .ok a) ∧
      ∀ e, y = .error e → ∃ e', x = .error e' ∧ ErrKind.of e' = ErrKind.of e := by
  cases x with
  | ok a =>
    cases y with
    | ok u => exact ⟨fun _ _ => ⟨a, rfl⟩, fun _ he => by cases he⟩
    | error e => exact h.elim
  | error e' =>
    cases y with
    | ok u => exact h.elim
    | error e =>
      refine ⟨fun _ hu => (by cases hu), fun e₁ he => ⟨e', rfl, ?_⟩⟩
      obtain rfl := Except.error.inj he
      exact h

theorem Shards.broadcast_run (f : ℕ → EStateM Error σ α) (s : Shards σ) :
    result (Shards.broadcast f) s = gather (s.shards.mapIdx fun i p => result (f i) p) ∧
      (exec (Shards.broadcast f) s).shards = s.shards.mapIdx fun i p => exec (f i) p := by
  rw [result, exec, Shards.broadcast]
  generalize gather (s.shards.mapIdx fun i p => result (f i) p) = answer
  cases answer with
  | ok answers => exact ⟨rfl, rfl⟩
  | error e => exact ⟨rfl, rfl⟩

theorem gather_first {P : Error → Prop} {l : List (Except Error α)} (hl : 0 < l.length)
    (h : ∀ x ∈ l, ∃ e, x = .error e ∧ P e) : ∃ e, gather l = .error e ∧ P e := by
  cases l with
  | nil => exact absurd hl (Nat.lt_irrefl 0)
  | cons x xs =>
    obtain ⟨e, he, hp⟩ := h x List.mem_cons_self
    exact ⟨e, gather_error he, hp⟩

/-- Every shard does what its part of the reference does, and so do they together. -/
theorem split_broadcast {f : ℕ → EStateM Error σ Unit}
    {y : ReferenceStore.ReferenceM Unit}
    (hy : ∀ i, result y (r.part s.shards.length i) = result y r ∧
      exec y (r.part s.shards.length i) = (exec y r).part s.shards.length i)
    (hf : ∀ i (h : i < s.shards.length),
      (OpOutcome.wrap (result (f i) s.shards[i]) fun _ => .unit).Eqv
          (.wrap (result y (r.part s.shards.length i)) fun _ => .unit) ∧
        I i (exec (f i) s.shards[i]) (exec y (r.part s.shards.length i))) :
    (OpOutcome.wrap (result (Shards.broadcast f >>= fun _ => pure ()) s) fun _ => .unit).Eqv
        (.wrap (result y r) fun _ => .unit) ∧
      Split I (exec (Shards.broadcast f >>= fun _ => pure ()) s) (exec y r) := by
  obtain ⟨hresult, hshards⟩ := Shards.broadcast_run f s
  have hmap : result (Shards.broadcast f >>= fun _ => pure ()) s =
      (result (Shards.broadcast f) s).map fun _ => () := by
    rw [result, result, bind_apply]
    cases Shards.broadcast f s with
    | ok a t => rfl
    | error e t => rfl
  rw [hmap, exec_bind_pure, hresult]
  constructor
  · have hall : ∀ x ∈ s.shards.mapIdx (fun i p => result (f i) p),
        (OpOutcome.wrap x fun _ => .unit).Eqv (.wrap (result y r) fun _ => .unit) := by
      intro x hx
      obtain ⟨i, hi, rfl⟩ := List.mem_mapIdx.mp hx
      rw [← (hy i).1]
      exact (hf i hi).1
    cases hr : result y r with
    | ok u =>
      obtain ⟨as, has⟩ := gather_ok fun x hx => (outcome_unit (hr ▸ hall x hx)).1 u rfl
      rw [has]
      exact trivial
    | error e =>
      obtain ⟨e', he', hkind⟩ := gather_first (by rw [List.length_mapIdx]; exact s.nonempty)
        fun x hx => (outcome_unit (hr ▸ hall x hx)).2 e rfl
      rw [he']
      exact hkind
  · intro i hi
    have hlen : (exec (Shards.broadcast f) s).shards.length = s.shards.length := by
      rw [hshards, List.length_mapIdx]
    have hget := List.getElem_of_eq hshards hi
    rw [List.getElem_mapIdx] at hget
    rw [hget, hlen, ← (hy i).2]
    exact (hf i (hlen ▸ hi)).2

/-! ### Reads of every shard -/

theorem Shards.ask_rel {R : α → β → Prop} {f : ℕ → σ → Except Error α} {g : ℕ → β}
    (h : ∀ i (hi : i < s.shards.length), ∃ a, f i s.shards[i] = .ok a ∧ R a (g i)) :
    ∃ as, s.ask f = .ok as ∧ List.Forall₂ R as ((List.range s.shards.length).map g) := by
  refine gather_rel (List.forall₂_iff_get.mpr ⟨?_, fun i hi _ => ?_⟩)
  · rw [List.length_mapIdx, List.length_map, List.length_range]
  · rw [List.length_mapIdx] at hi
    simpa using h i hi

theorem Shards.ask_error {P : Error → Prop} {f : ℕ → σ → Except Error α}
    (h : ∀ i (hi : i < s.shards.length), ∃ e, f i s.shards[i] = .error e ∧ P e) :
    ∃ e, s.ask f = .error e ∧ P e := by
  refine gather_first (by rw [List.length_mapIdx]; exact s.nonempty) fun x hx => ?_
  obtain ⟨i, hi, rfl⟩ := List.mem_mapIdx.mp hx
  exact h i hi

/-- Rows of the same ids that hold the same. -/
def SameRow (p q : RecordId × Record) : Prop := p.1 = q.1 ∧ p.2.Eqv q.2

theorem mergeById_rel {perShard others : List (List (RecordId × Record))}
    (h : List.Forall₂ (List.Forall₂ SameRow) perShard others) :
    List.Forall₂ SameRow (mergeById perShard) (mergeById others) := by
  have hsum : (perShard.map List.length).sum = (others.map List.length).sum := by
    induction h with
    | nil => rfl
    | cons hl _ ih =>
      rw [List.map_cons, List.map_cons, List.sum_cons, List.sum_cons, hl.length_eq, ih]
  cases h with
  | nil => exact .nil
  | cons hl hrest =>
    cases hrest with
    | nil => exact hl
    | cons hm hrest =>
      change List.Forall₂ SameRow (mergeHeads Prod.fst _ _) (mergeHeads Prod.fst _ _)
      rw [hsum]
      exact mergeHeads_rel (fun _ _ hab => hab.1) _ (.cons hl (.cons hm hrest))

theorem parts_entries (s : Shards σ) (t : ReferenceStore.Collection) :
    (((List.range s.shards.length).map fun i =>
      (t.part s.shards.length i).records.entries).flatten).Perm t.records.entries :=
  parts_perm (fun e : RecordId × Record => shardOf e.1 s.shards.length) s.shards.length
    fun _ _ => Nat.mod_lt _ s.nonempty

/-- Answers that are related, or errors of one kind. -/
def AnswersAlike (R : α → β → Prop) : Except Error α → Except Error β → Prop
  | .ok a, .ok b => R a b
  | .error e, .error f => ErrKind.of e = ErrKind.of f
  | _, _ => False

/-- An answer that every shard gives for its part. -/
theorem part_answers {f : ReferenceStore.Collection → β} {x : ℕ → σ → Except Error α}
    {R : α → β → Prop} {name : String}
    (h : ∀ i (hi : i < s.shards.length), AnswersAlike R (x i s.shards[i])
      (((r.part s.shards.length i).coll name).map f)) :
    (∃ t as, r.collections.get name = some t ∧ s.ask x = .ok as ∧
      List.Forall₂ R as ((List.range s.shards.length).map fun i => f (t.part s.shards.length i))) ∨
    ∃ e, r.collections.get name = none ∧ s.ask x = .error e ∧
      ErrKind.of e = .noSuchCollection := by
  cases hr : r.collections.get name with
  | some t =>
    have hok : ∀ i (hi : i < s.shards.length), ∃ a, x i s.shards[i] = .ok a ∧
        R a (f (t.part s.shards.length i)) := by
      intro i hi
      have hi' := h i hi
      rw [ReferenceStore.coll, ReferenceStore.get_part, hr, Option.map_some] at hi'
      cases hx : x i s.shards[i] with
      | ok a =>
        rw [hx] at hi'
        exact ⟨a, rfl, hi'⟩
      | error e =>
        rw [hx] at hi'
        exact hi'.elim
    obtain ⟨as, has, hrel⟩ := Shards.ask_rel hok
    exact .inl ⟨t, as, rfl, has, hrel⟩
  | none =>
    have herr : ∀ i (hi : i < s.shards.length), ∃ e, x i s.shards[i] = .error e ∧
        ErrKind.of e = .noSuchCollection := by
      intro i hi
      have hi' := h i hi
      rw [ReferenceStore.coll, ReferenceStore.get_part, hr, Option.map_none] at hi'
      cases hx : x i s.shards[i] with
      | ok a =>
        rw [hx] at hi'
        exact hi'.elim
      | error e =>
        rw [hx] at hi'
        exact ⟨e, rfl, hi'⟩
    obtain ⟨e, he, hkind⟩ := Shards.ask_error herr
    exact .inr ⟨e, rfl, he, hkind⟩

theorem answersAlike_rows {x y : Except Error (List (RecordId × Record))}
    (h : (OpOutcome.wrap x .rows).Eqv (.wrap y .rows)) :
    AnswersAlike (List.Forall₂ SameRow) x y := by
  cases x with
  | ok a =>
    cases y with
    | ok b => exact h
    | error e => exact h.elim
  | error e =>
    cases y with
    | ok b => exact h.elim
    | error e' => exact h

theorem answersAlike_count {x y : Except Error ℕ}
    (h : (OpOutcome.wrap x .count).Eqv (.wrap y .count)) : AnswersAlike (· = ·) x y := by
  cases x with
  | ok a =>
    cases y with
    | ok b => exact h
    | error e => exact h.elim
  | error e =>
    cases y with
    | ok b => exact h.elim
    | error e' => exact h

theorem answersAlike_ids {x y : Except Error (List RecordId)}
    (h : x.mapError ErrKind.of = y.mapError ErrKind.of) : AnswersAlike (· = ·) x y := by
  cases x with
  | ok a =>
    cases y with
    | ok b => exact Except.ok.inj h
    | error e => cases h
  | error e =>
    cases y with
    | ok b => cases h
    | error e' => exact Except.error.inj h

theorem shardedScan_agrees {name : String}
    (h : ∀ i (hi : i < s.shards.length), (OpOutcome.wrap ((S i).scan s.shards[i] name) .rows).Eqv
      (.wrap (ReferenceStore.store.scan (r.part s.shards.length i) name) .rows)) :
    (OpOutcome.wrap ((shardedStore S).scan s name) .rows).Eqv
      (.wrap (ReferenceStore.store.scan r name) .rows) := by
  unfold shardedStore ReferenceStore.store
  dsimp only
  rcases part_answers (x := fun i p => (S i).scan p name) fun i hi => answersAlike_rows (h i hi) with
    ⟨t, as, hr, has, hrel⟩ | ⟨e, hr, he, hkind⟩
  · rw [has, ReferenceStore.coll_some hr]
    have hmerged := mergeById_rel hrel
    have hparts : mergeById ((List.range s.shards.length).map fun i =>
        (t.part s.shards.length i).records.entries) = t.records.entries :=
      mergeById_parts t.records.sorted s.nonempty
    rw [hparts] at hmerged
    exact hmerged
  · rw [he, ReferenceStore.coll_none hr]
    exact hkind

theorem shardedCount_agrees {name : String}
    (h : ∀ i (hi : i < s.shards.length), (OpOutcome.wrap ((S i).count s.shards[i] name) .count).Eqv
      (.wrap (ReferenceStore.store.count (r.part s.shards.length i) name) .count)) :
    (OpOutcome.wrap ((shardedStore S).count s name) .count).Eqv
      (.wrap (ReferenceStore.store.count r name) .count) := by
  unfold shardedStore ReferenceStore.store
  dsimp only
  rcases part_answers (x := fun i p => (S i).count p name) fun i hi => answersAlike_count (h i hi)
    with ⟨t, as, hr, has, hrel⟩ | ⟨e, hr, he, hkind⟩
  · rw [has, ReferenceStore.coll_some hr, List.forall₂_eq_eq_eq.le _ _ hrel]
    have hlen := (parts_entries s t).length_eq
    rw [List.length_flatten, List.map_map] at hlen
    exact hlen
  · rw [he, ReferenceStore.coll_none hr]
    exact hkind

theorem shardedIds_agree {name : String}
    (h : ∀ i (hi : i < s.shards.length), ((S i).ids s.shards[i] name).mapError ErrKind.of =
      (ReferenceStore.store.ids (r.part s.shards.length i) name).mapError ErrKind.of) :
    ((shardedStore S).ids s name).mapError ErrKind.of =
      (ReferenceStore.store.ids r name).mapError ErrKind.of := by
  have hids : ∀ u : ReferenceStore, ReferenceStore.store.ids u name =
      (u.coll name).map fun t => t.records.keys := fun u => by
    unfold ReferenceStore.store
    dsimp only
    cases u.coll name with
    | ok t => rfl
    | error e => rfl
  simp only [hids] at h ⊢
  unfold shardedStore
  dsimp only
  rcases part_answers (x := fun i p => (S i).ids p name) fun i hi => answersAlike_ids (h i hi)
    with ⟨t, as, hr, has, hrel⟩ | ⟨e, hr, he, hkind⟩
  · rw [has, ReferenceStore.coll_some hr, List.forall₂_eq_eq_eq.le _ _ hrel]
    have hperm := (parts_entries s t).map Prod.fst
    rw [List.map_flatten, List.map_map] at hperm
    have hsorted : t.records.keys.Pairwise (· ≤ ·) :=
      List.pairwise_map.mpr (t.records.sorted.imp fun hab => hab.le)
    refine congrArg Except.ok ?_
    exact (((List.perm_insertionSort _ _).trans hperm).eq_of_pairwise
      (fun _ _ _ _ => le_antisymm) (List.pairwise_insertionSort _ _) hsorted)
  · rw [he, ReferenceStore.coll_none hr]
    exact congrArg Except.error hkind

/-- Shards that each answer as their part of the reference answer together as the reference. -/
theorem shards_simulate (h : ∀ i, Simulates (S i) ReferenceStore.store (I i) (A i)) :
    Simulates (shardedStore S) ReferenceStore.store (Split I) (ShardsAdmitted A) := by
  intro c s r hs hc
  have hown : ∀ id, I (s.owner id) (s.shards.get (s.owner id))
      (r.part s.shards.length (s.owner id)) := fun id => hs (s.owner id) (s.owner id).isLt
  cases c with
  | op o =>
    cases o with
    | insert name id rec =>
      exact hs.onOwner (f := fun i => (S i).insert name id rec)
        (ReferenceStore.insert_owned _ name id rec r) (fun _ => .unit)
        (h _ (.op (.insert name id rec)) _ _ (hown id) (hc.1 _ rfl))
    | get name id =>
      have hget := (h _ _ _ _ (hown id) (hc.1 _ rfl)).1
      refine ⟨?_, hs⟩
      change (OpOutcome.wrap _ OpOutcome.fetched).Eqv (.wrap (Except.map _ _) _) at hget
      rw [show (s.owner id : ℕ) = shardOf id s.shards.length from rfl,
        ReferenceStore.get_owned] at hget
      exact hget
    | update name id rec =>
      exact hs.onOwner (f := fun i => (S i).update name id rec)
        (ReferenceStore.update_owned _ name id rec r) .existed
        (h _ (.op (.update name id rec)) _ _ (hown id) (hc.1 _ rfl))
    | delete name id =>
      exact hs.onOwner (f := fun i => (S i).delete name id)
        (ReferenceStore.delete_owned _ name id r) .existed
        (h _ (.op (.delete name id)) _ _ (hown id) (hc.1 _ rfl))
    | scan name =>
      exact ⟨shardedScan_agrees fun i hi => (h i _ _ _ (hs i hi) ((hc.2 rfl).2 i hi)).1, hs⟩
    | count name =>
      exact ⟨shardedCount_agrees fun i hi => (h i _ _ _ (hs i hi) ((hc.2 rfl).2 i hi)).1, hs⟩
  | createCollection name schema =>
    exact split_broadcast (f := fun i => (S i).createCollection name schema)
      (ReferenceStore.createCollection_part _ name r schema)
      fun i hi => h i (.createCollection name schema) _ _ (hs i hi) ((hc.2 rfl).2 i hi)
  | dropCollection name =>
    exact split_broadcast (f := fun i => (S i).dropCollection name)
      (ReferenceStore.dropCollection_part _ name r)
      fun i hi => h i (.dropCollection name) _ _ (hs i hi) ((hc.2 rfl).2 i hi)
  | collectionNames =>
    have hnames := (h 0 _ _ _ (hs 0 s.nonempty) ((hc.2 rfl).2 0 s.nonempty)).1
    refine ⟨?_, hs⟩
    change (S 0).collectionNames _ = (r.part _ 0).collections.keys at hnames
    rw [ReferenceStore.keys_part] at hnames
    exact hnames
  | schemaOf name => cases (hc.2 rfl).1
  | insertKeyed name id rec key =>
    exact hs.onOwner (f := fun i => (S i).insert name id rec)
      (ReferenceStore.insert_owned _ name id rec r) (fun _ => .unit)
      (h _ (.op (.insert name id rec)) _ _ (hown id) (hc.1 _ rfl))
  | ids name => exact ⟨shardedIds_agree fun i hi => (h i _ _ _ (hs i hi) ((hc.2 rfl).2 i hi)).1, hs⟩

end Simulation

/-! ## Runs -/

section Runs

variable {υ : Type}

/-- Every shard keeps up its own structures. -/
def sharded (M : ℕ → Maintained σ υ) : Maintained (Shards σ) (ℕ × υ) :=
  { shardedStore fun i => (M i).toLogicalStore with
    upkeep := fun u s => match s.shards[u.1]? with
      | some p => s.put u.1 ((M u.1).upkeep u.2 p)
      | none => s }

def ShardAllowed (B : ℕ → υ → σ → Prop) (u : ℕ × υ) (s : Shards σ) : Prop :=
  ∀ p ∈ s.shards[u.1]?, B u.1 u.2 p

instance (B : ℕ → υ → σ → Prop) [∀ i u p, Decidable (B i u p)] (u : ℕ × υ) (s : Shards σ) :
    Decidable (ShardAllowed B u s) := by
  unfold ShardAllowed
  infer_instance

variable {M : ℕ → Maintained σ υ} {I : ℕ → σ → ReferenceStore → Prop} {B : ℕ → υ → σ → Prop}
  {s : Shards σ} {r : ReferenceStore}

theorem Split.upkeep (hM : ∀ i u p r, I i p r → B i u p → I i ((M i).upkeep u p) r)
    (hs : Split I s r) (u : ℕ × υ) (hu : ShardAllowed B u s) :
    Split I ((sharded M).upkeep u s) r := by
  unfold sharded
  dsimp only
  cases hp : s.shards[u.1]? with
  | none => exact hs
  | some p =>
    intro i hi
    change i < (s.shards.set _ _).length at hi
    rw [List.length_set] at hi
    change I i (s.shards.set _ _)[i] (r.part (s.shards.set _ _).length i)
    rw [List.length_set]
    obtain ⟨hlt, hget⟩ := List.getElem?_eq_some_iff.mp hp
    by_cases heq : i = u.1
    · subst heq
      rw [List.getElem_set_self]
      exact hM _ _ _ _ (hget ▸ hs u.1 hlt) (hu p hp)
    · rw [List.getElem_set_ne (Ne.symm heq)]
      exact hs i hi

end Runs

variable {ε : Type}

/-- Shards that were just made. -/
def emptyShards (n : ℕ) (strict : Bool) (others : ε) :
    Shards (Database (DirectLookup × ε)) :=
  ⟨List.replicate (n + 1) (emptyDatabase strict others), by
    rw [List.length_replicate]
    exact Nat.succ_pos n⟩

def shardedDatabase (E : ℕ → Env) (b : Build) (V : Engine.Upkeep ε) :
    Maintained (Shards (Database (DirectLookup × ε))) (ℕ × Tending ε) :=
  sharded fun i => database (E i) b V

theorem split_empty (E : ℕ → Env) (n : ℕ) (strict : Bool) (others : ε) :
    Split (fun i => Backs (E i)) (emptyShards n strict others) .new := by
  intro i hi
  have hget : (emptyShards n strict others).shards[i] = emptyDatabase strict others :=
    List.getElem_replicate _
  rw [hget, ReferenceStore.part_new]
  exact backs_empty (E i) strict others

/-- Two shards: one has direct arrays and the other does not, and their clocks agree again
before the second round of calls. -/
def spread : List (Call (ℕ × Tending Unit)) :=
  .logical (.createCollection "g" readings) :: wrote.map .logical ++
    [.upkeep (0, .configureDirectLookup true), .upkeep (0, .enableDirectLookup),
      .upkeep (1, .createIndex "g" "u" .hash), .upkeep (1, .share ⟨40, [39]⟩),
      .upkeep (0, .share ⟨40, [39]⟩), .upkeep (0, .store .reclaim)] ++
    wrote.map .logical ++ [.logical (.ids "g"), .logical (.op (.count "g")),
      .logical (.dropCollection "g"), .logical .collectionNames, .logical (.op (.scan "g"))]

theorem spread_admitted : Guarded (Call.step (shardedDatabase (fun _ => .plain) .checked .none))
    (Call.Admitted (ShardsAdmitted fun _ => DatabaseAdmitted .plain)
      (ShardAllowed fun _ => Tending.Allowed .plain)) (emptyShards 1 true ()) spread := by
  decide +kernel

end Adabt.Testkit
