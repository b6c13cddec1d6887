import Adabt.Storage.SchemaChange

/-! # Tables over shards

Every shard holds every collection, so a change to the tables is carried out on
all of them. Each shard decides for itself, and the first error is reported after
all have done what they did. -/

set_option autoImplicit false

namespace Adabt.Engine
open Adabt.Core Adabt.Library Adabt.Storage Adabt.Storage.Heap

/-- One shard, and what it stores. -/
structure Partition where
  env : Env
  store : Heap

/-- `open` makes no database of no shards. -/
structure Partitions where
  shards : List Partition
  nonempty : 0 < shards.length

namespace Partitions

/-- Every shard does it, and the first error in shard order is the answer. -/
def broadcast {α : Type} (f : Env → HeapM α) : EStateM Error Partitions (List α) := fun s =>
  let done : Partitions :=
    ⟨s.shards.map fun p => { p with store := exec (f p.env) p.store }, by
      rw [List.length_map]
      exact s.nonempty⟩
  match gather (s.shards.map fun p => result (f p.env) p.store) with
  | .ok answers => .ok answers done
  | .error e => .error e done

def createCollection (name : String) (schema : Schema) : EStateM Error Partitions Unit :=
  broadcast (fun E => Heap.createCollection E name schema) >>= fun _ => pure ()

def dropCollection (name : String) : EStateM Error Partitions Unit :=
  broadcast (fun E => Heap.dropCollection E name) >>= fun _ => pure ()

def alterSchema (name : String) (schema : Schema) : EStateM Error Partitions Unit :=
  broadcast (fun E => Heap.alterSchema E name schema >>= fun _ => pure ()) >>= fun _ => pure ()

/-- Something done on one shard alone. -/
def onShard (i : ℕ) (f : Env → HeapM Unit) (s : Partitions) : Partitions :=
  ⟨s.shards.modify i fun p => { p with store := exec (f p.env) p.store }, by
    rw [List.length_modify]
    exact s.nonempty⟩

/-! ## Calls -/

inductive Write where
  | insert (id : RecordId) (rec : Record)
  | insertKeyed (id : RecordId) (rec : Record) (key : Int64)
  | insertBatch (records : List (RecordId × Record))
  | update (id : RecordId) (rec : Record)
  | delete (id : RecordId)

def Write.on (w : Write) (collection : String) (E : Env) : HeapM Unit :=
  match w with
  | .insert id rec => Heap.insert E collection id rec
  | .insertKeyed id rec key => Heap.insertKeyed E collection id rec key
  | .insertBatch records => Heap.insertBatch E collection records >>= fun _ => pure ()
  | .update id rec => Heap.update E collection id rec >>= fun _ => pure ()
  | .delete id => Heap.delete E collection id >>= fun _ => pure ()

inductive TableCall where
  | create (name : String) (schema : Schema)
  | drop (name : String)
  | alter (name : String) (schema : Schema)

inductive Call where
  | table (c : TableCall)
  | write (shard : ℕ) (collection : String) (w : Write)

def TableCall.run : TableCall → EStateM Error Partitions Unit
  | create name schema => createCollection name schema
  | drop name => dropCollection name
  | alter name schema => alterSchema name schema

def step : Call → Partitions → Partitions
  | .table c => exec c.run
  | .write i collection w => onShard i (w.on collection)

/-! ## Agreement -/

/-- All shards hold the same collections with the same schemas. -/
def Uniform (s : Partitions) : Prop :=
  ∀ p ∈ s.shards, ∀ q ∈ s.shards, p.store.schemas = q.store.schemas

structure Ready (s : Partitions) : Prop where
  sound : ∀ p ∈ s.shards, p.store.Sound
  opened : ∀ p ∈ s.shards, p.store.replaying = false

/-- Nothing that any shard stores or declares has changed. -/
def Unchanged (s s' : Partitions) : Prop :=
  List.Forall₂ (fun p q => p.env = q.env ∧ Keeps p.store q.store) s.shards s'.shards

/-- The rows of every shard fit the schema that they have to be copied for, or those of none do. -/
def Agreed : Call → Partitions → Prop
  | .table (.alter name schema), s =>
    isMigrationName name ∨
    (∀ p ∈ s.shards, ¬ p.store.EditsInPlace name schema → Unfit p.env p.store name schema) ∨
      ∀ p ∈ s.shards, ¬ p.store.EditsInPlace name schema → Fit p.env p.store name schema
  | _, _ => True

/-! ## What one shard decides -/

namespace TableCall

def op (c : TableCall) (E : Env) : HeapM Unit :=
  match c with
  | create name schema => Heap.createCollection E name schema
  | drop name => Heap.dropCollection E name
  | alter name schema => Heap.alterSchema E name schema >>= fun _ => pure ()

theorem run_eq (c : TableCall) : c.run = broadcast c.op >>= fun _ => pure () := by
  cases c <;> rfl

def Accepted (E : Env) (h : Heap) : TableCall → Prop
  | create name schema => h.schemas name = none ∧ Loggable (.createCollection name (encodeSchema schema))
  | drop name => h.schemas name ≠ none ∧ Loggable (.dropCollection name)
  | alter name schema => Accepts E h name schema

def Refused (E : Env) (h : Heap) : TableCall → Prop
  | create name schema => ¬ Accepted E h (create name schema)
  | drop name => ¬ Accepted E h (drop name)
  | alter name schema => Refuses E h name schema

/-- The schemas after the call, from those before it. -/
def applied : TableCall → (String → Option Schema) → String → Option Schema
  | create name schema, schemas => Function.update schemas name (some schema)
  | drop name, schemas => Function.update schemas name none
  | alter name schema, schemas =>
    let altered := Function.update schemas name (some schema)
    if ∃ old ∈ schemas name, schemaEditableInPlace old schema then altered
    else Function.update altered (migrationName name) none

theorem op_spec (c : TableCall) (E : Env) {h : Heap} (hs : h.Sound) (hopen : h.replaying = false) :
    Post (c.op E) h
      (fun _ h' => ¬ c.Refused E h ∧ h'.Sound ∧ h'.replaying = false ∧
        h'.schemas = c.applied h.schemas)
      fun _ h' => ¬ c.Accepted E h ∧ (c.Refused E h → Keeps h h') := by
  cases c with
  | create name schema =>
    refine (createCollection_decides E hs hopen name schema).mono (fun _ h' a => ?_) fun _ _ a => ?_
    · exact ⟨not_not.mpr a.1, a.2.1, a.2.2.1.trans hopen, a.2.2.2⟩
    · exact ⟨a.1, fun _ => a.2⟩
  | drop name =>
    have hthere : (h.formatOf name).isSome ↔ h.schemas name ≠ none := by
      rw [schemas, ne_eq, Option.map_eq_none_iff, ← ne_eq, Option.isSome_iff_ne_none]
    refine (dropCollection_spec E hs hopen name).mono (fun _ h' a => ?_) fun _ _ a => ?_
    · rw [hthere] at a
      refine ⟨not_not.mpr a.1, a.2.rekeyed.sound, a.2.rekeyed.mode.trans hopen, ?_⟩
      funext m
      unfold schemas
      rw [a.2.format, applied]
      simp only [Function.update_apply]
      split_ifs
      · rfl
      · rfl
    · rw [hthere] at a
      exact ⟨a.1, fun _ => a.2⟩
  | alter name schema =>
    rw [op, post_bind]
    refine (alterSchema_spec E hs hopen name schema).mono (fun _ h' a => ?_) fun _ _ a => a
    rw [post_pure]
    refine ⟨a.1, a.2.sound, a.2.mode.trans hopen, ?_⟩
    by_cases hedit : h.EditsInPlace name schema
    · exact (a.2.inPlace hedit).trans (if_pos hedit).symm
    · exact (a.2.moved hedit).trans (if_neg hedit).symm

end TableCall

variable {s : Partitions}

theorem mem_shards (s : Partitions) : ∃ p, p ∈ s.shards :=
  List.exists_mem_of_ne_nil _ (List.ne_nil_of_length_pos s.nonempty)

/-- Shards with the same schemas decide alike, where their rows do. -/
theorem decided {c : TableCall} (hu : Uniform s) (ha : Agreed (.table c) s) :
    (∀ p ∈ s.shards, c.Accepted p.env p.store) ∨ ∀ p ∈ s.shards, c.Refused p.env p.store := by
  obtain ⟨p, hp⟩ := mem_shards s
  cases c with
  | create name schema =>
    by_cases h : p.store.schemas name = none ∧ Loggable (.createCollection name (encodeSchema schema))
    · exact .inl fun q hq => by rw [TableCall.Accepted, hu q hq p hp]; exact h
    · exact .inr fun q hq => by rw [TableCall.Refused, TableCall.Accepted, hu q hq p hp]; exact h
  | drop name =>
    by_cases h : p.store.schemas name ≠ none ∧ Loggable (.dropCollection name)
    · exact .inl fun q hq => by rw [TableCall.Accepted, hu q hq p hp]; exact h
    · exact .inr fun q hq => by rw [TableCall.Refused, TableCall.Accepted, hu q hq p hp]; exact h
  | alter name schema =>
    by_cases hname : isMigrationName name
    · exact .inr fun q _ => .inl hname
    by_cases hnone : p.store.schemas name = none
    · exact .inr fun q hq => .inr (.inl (hu q hq p hp ▸ hnone))
    have hsame : ∀ q ∈ s.shards, (q.store.EditsInPlace name schema ↔ p.store.EditsInPlace name schema) := by
      intro q hq
      unfold EditsInPlace
      rw [hu q hq p hp]
    have hthere : ∀ q ∈ s.shards, isMigrationName name = false ∧ q.store.schemas name ≠ none :=
      fun q hq => ⟨Bool.not_eq_true _ ▸ hname, hu q hq p hp ▸ hnone⟩
    by_cases hedit : p.store.EditsInPlace name schema
    · -- The same entry is logged on every shard.
      by_cases hlog : Loggable (.alterSchemaInPlace name (encodeSchema schema))
      · refine .inl fun q hq => ⟨(hthere q hq).1, (hthere q hq).2, ?_⟩
        rwa [if_pos ((hsame q hq).mpr hedit)]
      · refine .inr fun q hq => .inr (.inr ?_)
        rwa [if_pos ((hsame q hq).mpr hedit)]
    · have hmoves : ∀ q ∈ s.shards, ¬ q.store.EditsInPlace name schema :=
        fun q hq => (hsame q hq).not.mpr hedit
      rcases ha with ha | ha | ha
      · exact absurd ha hname
      · refine .inr fun q hq => .inr (.inr ?_)
        rw [if_neg (hmoves q hq)]
        exact ha q hq (hmoves q hq)
      · refine .inl fun q hq => ⟨(hthere q hq).1, (hthere q hq).2, ?_⟩
        rw [if_neg (hmoves q hq)]
        exact ha q hq (hmoves q hq)

/-! ## What all of them do -/

theorem broadcast_returns {α : Type} {f : Env → HeapM α} {Q : Partition → Heap → Prop}
    (h : ∀ p ∈ s.shards, Returns (f p.env) p.store fun _ => Q p) :
    Returns (broadcast f) s fun _ s' =>
      List.Forall₂ (fun p q => p.env = q.env ∧ Q p q.store) s.shards s'.shards := by
  obtain ⟨as, has⟩ := gather_ok (l := s.shards.map fun p => result (f p.env) p.store) (by
    intro r hr
    obtain ⟨p, hp, rfl⟩ := List.mem_map.mp hr
    obtain ⟨a, ha, -⟩ := (h p hp).result
    exact ⟨a, ha⟩)
  unfold Returns Post broadcast
  rw [has]
  refine List.forall₂_map_right_iff.mpr (List.forall₂_same.mpr fun p hp => ⟨rfl, ?_⟩)
  exact (h p hp).result.elim fun _ ha => ha.2

theorem broadcast_fails {α : Type} {f : Env → HeapM α} {Q : Partition → Heap → Prop}
    (h : ∀ p ∈ s.shards, Post (f p.env) p.store (fun _ _ => False) fun _ => Q p) :
    Post (broadcast f) s (fun _ _ => False) fun _ s' =>
      List.Forall₂ (fun p q => p.env = q.env ∧ Q p q.store) s.shards s'.shards := by
  have hfirst : ∃ e, gather (s.shards.map fun p => result (f p.env) p.store) = .error e := by
    cases hs : s.shards with
    | nil => exact absurd s.nonempty (by rw [hs]; exact Nat.lt_irrefl 0)
    | cons p rest =>
      obtain ⟨e, he, -⟩ := result_of_fails (h p (hs ▸ List.mem_cons_self))
      exact ⟨e, gather_error he⟩
  obtain ⟨e, he⟩ := hfirst
  unfold Post broadcast
  rw [he]
  refine List.forall₂_map_right_iff.mpr (List.forall₂_same.mpr fun p hp => ⟨rfl, ?_⟩)
  exact (result_of_fails (h p hp)).elim fun _ ha => ha.2

/-- A call that all shards accept is carried out on all, and one that they refuse on none. -/
theorem table_spec (hr : Ready s) (hu : Uniform s) {c : TableCall} (ha : Agreed (.table c) s) :
    Post c.run s
      (fun _ s' => List.Forall₂ (fun p q => p.env = q.env ∧ q.store.Sound ∧
        q.store.replaying = false ∧ q.store.schemas = c.applied p.store.schemas) s.shards s'.shards)
      fun _ s' => Unchanged s s' := by
  rw [c.run_eq, post_bind]
  rcases decided hu ha with hall | hnone
  · refine (broadcast_returns (f := c.op) (Q := fun p h' => h'.Sound ∧ h'.replaying = false ∧
      h'.schemas = c.applied p.store.schemas) fun p hp => ?_).mono fun _ s' hdone => hdone
    exact (c.op_spec p.env (hr.sound p hp) (hr.opened p hp)).mono (fun _ _ a => a.2)
      fun _ _ a => a.1 (hall p hp)
  · refine (broadcast_fails (f := c.op) fun p hp => ?_).mono (fun _ _ => False.elim) fun _ _ a => a
    exact (c.op_spec p.env (hr.sound p hp) (hr.opened p hp)).mono (fun _ _ a => a.1 (hnone p hp))
      fun _ _ a => a.2 (hnone p hp)

/-! ## Runs -/

/-- What holds between any two calls. -/
structure Even (s : Partitions) : Prop where
  ready : Ready s
  uniform : Uniform s

/-- Shards whose schemas change alike stay alike. -/
theorem even_of_forall {g : (String → Option Schema) → String → Option Schema} {s' : Partitions}
    (h : Even s) (hall : List.Forall₂ (fun p q => p.env = q.env ∧ q.store.Sound ∧
      q.store.replaying = false ∧ q.store.schemas = g p.store.schemas) s.shards s'.shards) :
    Even s' := by
  have hfrom := fun q hq => forall₂_mem_right hall (y := q) hq
  refine ⟨⟨fun q hq => ?_, fun q hq => ?_⟩, fun q hq r hr => ?_⟩
  · obtain ⟨p, -, hpq⟩ := hfrom q hq
    exact hpq.2.1
  · obtain ⟨p, -, hpq⟩ := hfrom q hq
    exact hpq.2.2.1
  · obtain ⟨p, hp, hpq⟩ := hfrom q hq
    obtain ⟨p', hp', hpr⟩ := hfrom r hr
    rw [hpq.2.2.2, hpr.2.2.2, h.uniform p hp p' hp']

/-- Writes, on any shards, leave the shards alike. -/
theorem even_of_evolves {s' : Partitions} (h : Even s) (hall : List.Forall₂ (fun p q =>
      p.env = q.env ∧ Evolves p.store q.store) s.shards s'.shards) : Even s' := by
  refine even_of_forall (g := id) h ?_
  have hopened := h.ready.opened
  clear h
  generalize s.shards = ps at hall hopened
  generalize s'.shards = qs at hall
  induction hall with
  | nil => exact .nil
  | cons hpq _ ih =>
    obtain ⟨hopen, hrest⟩ := List.forall_mem_cons.mp hopened
    exact .cons ⟨hpq.1, hpq.2.sound, hpq.2.mode.trans hopen, hpq.2.schemas_eq⟩ (ih hrest)

theorem Write.writing (w : Write) (collection : String) (E : Env) :
    Writing (w.on collection E) := by
  cases w with
  | insert id rec => exact writing_insert E collection id rec
  | insertKeyed id rec key => exact writing_insertKeyed E collection id rec key
  | insertBatch records => exact (writing_insertBatch E collection records).bind fun _ => .pure ()
  | update id rec => exact (writing_update E collection id rec).bind fun _ => .pure ()
  | delete id => exact (writing_delete E collection id).bind fun _ => .pure ()

/-- The other shards are left as they are. -/
theorem onShard_evolves {f : Env → HeapM Unit} (hf : ∀ E, Writing (f E)) (i : ℕ) (hr : Ready s) :
    List.Forall₂ (fun p q => p.env = q.env ∧ Evolves p.store q.store) s.shards
      (onShard i f s).shards := by
  have hsame : ∀ ps : List Partition, (∀ p ∈ ps, p.store.Sound) →
      List.Forall₂ (fun p q => p.env = q.env ∧ Evolves p.store q.store) ps ps :=
    fun ps hps => List.forall₂_same.mpr fun p hp => ⟨rfl, .refl (hps p hp)⟩
  have hsound := hr.sound
  unfold onShard
  dsimp only
  generalize s.shards = ps at hsound
  induction ps generalizing i with
  | nil =>
    rw [List.modify_nil]
    exact .nil
  | cons p ps ih =>
    obtain ⟨hp, hps⟩ := List.forall_mem_cons.mp hsound
    cases i with
    | zero => exact .cons ⟨rfl, (hf p.env hp).exec⟩ (hsame ps hps)
    | succ i => exact .cons ⟨rfl, .refl hp⟩ (ih i hps)

theorem step_even (c : Call) (s : Partitions) (h : Even s) (ha : Agreed c s) : Even (step c s) := by
  cases c with
  | table c =>
    refine Post.exec (I := Even) ((table_spec h.ready h.uniform ha).mono
      (fun _ _ hall => even_of_forall h hall) fun _ _ hc => even_of_evolves h ?_)
    exact hc.imp fun _ _ hpq => ⟨hpq.1, hpq.2.evolves⟩
  | write i collection w => exact even_of_evolves h (onShard_evolves (w.writing collection) i h.ready)

/-- In a run whose alterations the rows of all shards agree on, the shards hold the same
collections with the same schemas after every call, and a call on the tables that fails
changes none of them. -/
theorem tables_all_or_nothing {s : Partitions} (hs : Even s) (calls : List Call)
    (hg : Guarded step Agreed s calls) :
    Even (run step s calls) ∧ ∀ before c after, calls = before ++ .table c :: after →
      ∀ e, result c.run (run step s before) = .error e →
        Unchanged (run step s before) (run step s (before ++ [.table c])) := by
  refine ⟨run_invariant step_even hs hg, ?_⟩
  rintro before c after rfl e he
  obtain ⟨hbefore, hc⟩ := Guarded.split hg
  have heven := run_invariant step_even hs hbefore
  have hspec := table_spec heven.ready heven.uniform hc
  rw [run_append]
  change Unchanged _ (exec c.run (run step s before))
  unfold Post at hspec
  unfold result at he
  unfold exec
  cases hrun : c.run (run step s before) with
  | ok _ _ => simp [hrun] at he
  | error _ s' => simpa [hrun] using hspec

/-- Two shards with nothing in them. -/
def pair : Partitions := ⟨[⟨.plain, fresh⟩, ⟨.plain, fresh⟩], by decide⟩

theorem pair_even : Even pair := by
  have hall : ∀ p ∈ pair.shards, p = ⟨.plain, fresh⟩ := by
    intro p hp
    simpa [pair] using hp
  refine ⟨⟨fun p hp => ?_, fun p hp => ?_⟩, fun p hp q hq => ?_⟩
  · rw [hall p hp]
    exact fresh_sound
  · rw [hall p hp]
    rfl
  · rw [hall p hp, hall q hq]

def withAge : Schema := ⟨.strict, [⟨"age", .i64, true⟩], rfl⟩

def users : Call := .table (.create "users" .dynamic)

def addAge : Call := .table (.alter "users" withAge)

/-- A record of the second shard whose age is a text. -/
def textAge : Call := .write 1 "users" (.insert 1 ((∅ : Record).set "age" ⟨.str "old", trivial⟩))

def numberAge : Call := .write 1 "users" (.insert 1 ((∅ : Record).set "age" ⟨.i64 30, trivial⟩))

theorem empty_fit : Fit .plain (exec (Heap.createCollection .plain "users" .dynamic) fresh) "users"
    withAge where
  created := by decide +kernel
  adopted := by decide +kernel
  dropped _ := by decide +kernel
  copied := ⟨[], [], rfl, rfl, .nil, List.forall_mem_nil _⟩

/-- Altered while no shard holds a record, and written to afterwards. -/
theorem altered_everywhere : Even (run step pair [users, addAge, numberAge]) := by
  refine (tables_all_or_nothing pair_even [users, addAge, numberAge] ⟨trivial, ?_, trivial, trivial⟩).1
  refine .inr (.inr fun p hp _ => ?_)
  have hshards : (step users pair).shards = List.replicate 2
      ⟨.plain, exec (Heap.createCollection .plain "users" .dynamic) fresh⟩ := rfl
  rw [hshards] at hp
  rw [List.eq_of_mem_replicate hp]
  exact empty_fit

/-- The second shard refuses, the caller is told so, and the first has the new schema. -/
theorem half_altered : Even (run step pair [users, textAge]) ∧
    (∃ e, result (TableCall.alter "users" withAge).run (run step pair [users, textAge]) = .error e) ∧
      ¬ Uniform (run step pair [users, textAge, addAge]) := by
  refine ⟨run_invariant step_even pair_even ⟨trivial, trivial, trivial⟩, ?_, fun hu => ?_⟩
  · have herr : (result (TableCall.alter "users" withAge).run
        (run step pair [users, textAge])).isOk = false := by decide +kernel
    cases hr : result (TableCall.alter "users" withAge).run (run step pair [users, textAge]) with
    | ok _ =>
      rw [hr] at herr
      cases herr
    | error e => exact ⟨e, rfl⟩
  · have hfields : ∀ a ∈ (run step pair [users, textAge, addAge]).shards.map fun p =>
          (p.store.schemas "users").map (·.fields.length),
        ∀ b ∈ (run step pair [users, textAge, addAge]).shards.map fun p =>
          (p.store.schemas "users").map (·.fields.length), a = b := by
      intro a ha b hb
      obtain ⟨p, hp, rfl⟩ := List.mem_map.mp ha
      obtain ⟨q, hq, rfl⟩ := List.mem_map.mp hb
      rw [hu p hp q hq]
    have hdiffer : ((run step pair [users, textAge, addAge]).shards.map fun p =>
        (p.store.schemas "users").map (·.fields.length)) = [some 1, some 0] := by decide +kernel
    rw [hdiffer] at hfields
    exact absurd (hfields (some 1) (by decide) (some 0) (by decide)) (by decide)

end Partitions

end Adabt.Engine
