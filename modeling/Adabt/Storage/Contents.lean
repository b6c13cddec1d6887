import Adabt.Storage.Calls

/-! # What a call leaves stored

A put replaces what is stored under one key, a delete empties one key, and every
other call on records leaves all of it as it was. A call that fails has changed
nothing that is stored, whatever it wrote to the log. -/

set_option autoImplicit false

namespace Adabt.Storage
open Adabt.Core Adabt.Library

namespace Heap

variable (E : Env)

/-- The payload stored under every key. -/
abbrev stored (h : Heap) : Key → Option Bytes := h.store.now

/-- How a collection writes its records: its id, its codec, and whether the heap compresses. -/
def formatOf (h : Heap) (name : String) : Option (CollectionId × RecordCodec × Bool) :=
  (h.collections.get name).map fun c => (c.id, c.codec, h.compress)

/-- The heap went through writes, and the payload under one key is now the given one. -/
structure Rewrites (k : Key) (payload : Option Bytes) (h h' : Heap) : Prop where
  evolves : Evolves h h'
  format : h'.formatOf = h.formatOf
  stored : h'.stored = Function.update h.stored k payload

/-- The heap went through writes that left everything stored as it was. -/
structure Keeps (h h' : Heap) : Prop where
  evolves : Evolves h h'
  format : h'.formatOf = h.formatOf
  stored : h'.stored = h.stored

theorem Keeps.refl {h : Heap} (hs : h.Sound) : Keeps h h := ⟨.refl hs, rfl, rfl⟩

theorem Keeps.trans {h h1 h2 : Heap} (a : Keeps h h1) (b : Keeps h1 h2) : Keeps h h2 :=
  ⟨a.evolves.trans b.evolves, b.format.trans a.format, b.stored.trans a.stored⟩

theorem Rewrites.keeps {k : Key} {p : Option Bytes} {h h1 h2 : Heap} (a : Rewrites k p h h1)
    (b : Keeps h1 h2) : Rewrites k p h h2 :=
  ⟨a.evolves.trans b.evolves, b.format.trans a.format, b.stored.trans a.stored⟩

theorem Keeps.rewrites {k : Key} {p : Option Bytes} {h h1 h2 : Heap} (a : Keeps h h1)
    (b : Rewrites k p h1 h2) : Rewrites k p h h2 :=
  ⟨a.evolves.trans b.evolves, b.format.trans a.format, b.stored.trans (by rw [a.stored])⟩

/-! ## Logging -/

/-- An entry that the log takes. -/
def Loggable (op : WalOp) : Prop := 24 + op.encode.length ≤ maxEntry

theorem append_ok {w : Wal} {op : WalOp} (h : Loggable op) (nanos txn : ℕ) :
    (w.append nanos txn op).1 = .ok () := by
  have hlen : (WalEntry.encodePayload ⟨w.nextLsn, nanos, txn, op⟩).length ≤ maxEntry := by
    unfold WalEntry.encodePayload
    simp only [List.length_append, leBytes_length]
    exact h
  unfold Wal.append
  simp only [if_neg (Nat.not_lt.mpr hlen)]

theorem append_error {w : Wal} {op : WalOp} (h : ¬ Loggable op) (nanos txn : ℕ) {u : Unit} :
    (w.append nanos txn op).1 ≠ .ok u := by
  have hlen : maxEntry < (WalEntry.encodePayload ⟨w.nextLsn, nanos, txn, op⟩).length := by
    unfold WalEntry.encodePayload
    simp only [List.length_append, leBytes_length]
    exact Nat.not_le.mp h
  unfold Wal.append
  simp only [if_pos hlen]
  nofun

/-- Only the log differs. -/
def WalOnly (h h' : Heap) : Prop := ∃ wal, h' = { h with wal := wal }

theorem WalOnly.keeps {h h' : Heap} (w : WalOnly h h') (hs : h.Sound) : Keeps h h' := by
  obtain ⟨wal, rfl⟩ := w
  exact ⟨.of_same hs rfl rfl rfl rfl rfl, rfl, rfl⟩

theorem log_spec (op : WalOp) (h : Heap) :
    Post (log E op) h (fun _ => WalOnly h) fun _ => WalOnly h := by
  unfold log
  simp only [post_bind, post_get]
  by_cases hr : h.replaying
  · rw [if_pos hr]
    exact ⟨h.wal, rfl⟩
  · rw [if_neg hr]
    simp only [post_bind, post_modify]
    exact post_attempt (fun _ _ => ⟨_, rfl⟩) fun _ _ => ⟨_, rfl⟩

theorem log_returns {op : WalOp} (h : Heap) (hop : Loggable op) :
    Returns (log E op) h fun _ _ => True := by
  unfold log
  simp only [post_bind, post_get]
  by_cases hr : h.replaying
  · rw [if_pos hr]
    trivial
  · rw [if_neg hr]
    simp only [post_bind, post_modify]
    refine post_attempt (fun _ _ => trivial) fun e he => ?_
    rw [append_ok hop] at he
    cases he

theorem log_refuses {op : WalOp} {h : Heap} (hopen : h.replaying = false) (hop : ¬ Loggable op) :
    Post (log E op) h (fun _ _ => False) fun _ => WalOnly h := by
  unfold log
  rw [post_bind, post_get, if_neg (by simp [hopen])]
  simp only [post_bind, post_modify]
  exact post_attempt (fun _ he => append_error hop _ _ he) fun _ _ => ⟨_, rfl⟩

/-! ## Reclaiming -/

theorem Reclaimed.formatOf {h h' : Heap} (r : Reclaimed E h h') : h'.formatOf = h.formatOf := by
  obtain ⟨h1, a, rfl⟩ := r
  funext name
  change h1.formatOf name = _
  rw [a.only]
  unfold Heap.formatOf trimAll
  simp only [OrdMap.get_mapVal, Option.map_map]
  rfl

theorem keeps_reclaim {h : Heap} (hs : h.Sound) :
    Returns (reclaim E) h fun _ => Keeps h := by
  refine (reclaim_spec E hs.store).mono fun _ h' r => ?_
  have ht := r.2.trimmed
  refine ⟨?_, r.2.formatOf, ht.now_eq hs.store⟩
  exact evolves_of_writes hs (.single (.trim _ _ _ (fun t => VersionTracker.reclaimHorizon_le) ht))
    r.2.codecOf (r.2.mode E) (r.2.fsm E hs.fsm)

theorem keeps_maybeReclaim {h : Heap} (hs : h.Sound) :
    Returns (maybeReclaim E) h fun _ => Keeps h := by
  unfold maybeReclaim
  simp only [post_bind, post_get]
  by_cases hr : retentionLimit ≤ h.retained
  · rw [if_pos hr]
    simp only [post_bind]
    exact (keeps_reclaim E hs).mono fun _ _ k => k
  · rw [if_neg hr]
    exact Keeps.refl hs

/-! ## Puts -/

theorem Wrote.formatOf {name : String} {c : Collection} {id : RecordId} {bytes : Bytes}
    {h h' : Heap} (w : Wrote E name c id bytes h h') : h'.formatOf = h.formatOf := by
  obtain ⟨loc, h1, p, rfl⟩ := w
  funext m
  have hget := congrArg (Option.map fun c : Collection => (c.id, c.codec, h.compress)) (p.only.get m)
  have hcompress : h1.compress = h.compress := p.only.compress
  simp only [Option.map_map, Function.comp_def] at hget
  unfold Heap.formatOf pushVersion
  cases hc : h1.collections.get name with
  | none =>
    rw [hcompress]
    exact hget
  | some d =>
    simp only [setCollection, OrdMap.get_insert, hcompress]
    split_ifs with hm
    · subst hm
      rw [hc] at hget
      exact hget
    · exact hget

/-- A put stores its payload, or changes nothing when the payload exceeds a page. -/
theorem applyPutBy_spec {placing : Bytes → HeapM RecordLocation} (hp : Places placing)
    {h : Heap} (hs : h.Sound) {name : String} {c : Collection}
    (hc : h.collections.get name = some c) (id : RecordId) (bytes : Bytes) :
    Post (applyPutBy E placing name id bytes) h
      (fun _ => Rewrites (name, id) (some (buildPayload E c.id id bytes h.compress)) h)
      fun e h' => e = exceedsPage bytes.length ∧ h' = h ∧
        maxPayload < (buildPayload E c.id id bytes h.compress).length := by
  unfold applyPutBy
  simp only [post_bind, post_get, hc]
  refine (writeVersion_spec E hp hs.fsm name c id bytes).mono (fun _ h1 w => ?_) fun _ _ h => h
  obtain ⟨loc, hfresh, hstore⟩ := w.store E hc
  have hr : Rewrites (name, id) (some (buildPayload E c.id id bytes h.compress)) h h1 := by
    refine ⟨w.evolves E hs hc, w.formatOf E, ?_⟩
    unfold Heap.stored
    rw [hstore]
    exact hs.store.now_put _ _ hfresh
  exact (keeps_maybeReclaim E hr.evolves.sound).mono fun _ _ k => hr.keeps k

/-- A payload that exceeds a page is refused with nothing changed. -/
theorem applyPutBy_refuses (placing : Bytes → HeapM RecordLocation) {h : Heap} {name : String}
    {c : Collection} (hc : h.collections.get name = some c) {id : RecordId} {bytes : Bytes}
    (hlen : maxPayload < (buildPayload E c.id id bytes h.compress).length) :
    Post (applyPutBy E placing name id bytes) h (fun _ _ => False) fun _ h' => h' = h := by
  unfold applyPutBy writeVersion
  simp only [post_bind, post_get, hc, if_pos hlen]
  rfl

/-! ## Deletes -/

theorem isLive_iff {h : Heap} (hs : h.Sound) {name : String} {c : Collection}
    (hc : h.collections.get name = some c) (id : RecordId) :
    isLive c id = true ↔ h.stored (name, id) ≠ none := by
  have hread := readable_newest hs.store name id
  rw [hc, Option.bind_some] at hread
  unfold Heap.stored isLive
  rw [← content_newest, content, hc, Option.bind_some]
  cases hd : c.directory.get id with
  | none => simp
  | some chain =>
    rw [hd, Option.bind_some] at hread
    rw [Option.map_some, Option.getD_some, Option.bind_some, Bool.not_eq_true', VersionChain.isAbsent]
    cases hn : chain.newest with
    | none => simp
    | some loc => simp [hread loc hn]

theorem formatOf_pushTombstone {h : Heap} {name : String} {c : Collection} {id : RecordId}
    {chain : VersionChain} {txn : ℕ} (hc : h.collections.get name = some c) :
    (pushTombstone name id txn c chain (began h)).formatOf = h.formatOf := by
  funext m
  unfold Heap.formatOf pushTombstone setCollection began
  simp only [OrdMap.get_insert]
  split_ifs with hm
  · rw [hm, hc]
    rfl
  · rfl

/-- A delete empties the key and says whether there was anything under it. -/
theorem applyDelete_spec {h : Heap} (hs : h.Sound) (name : String) (id : RecordId) :
    Returns (applyDelete E name id) h fun existed h' =>
      (existed = true ∧ h.stored (name, id) ≠ none ∧ Rewrites (name, id) none h h') ∨
      (existed = false ∧ h.stored (name, id) = none ∧ Keeps h h') := by
  have hb : Keeps h (began h) := ⟨began_evolves hs, rfl, rfl⟩
  have hlive := @isLive_iff h hs name
  unfold applyDelete
  simp only [post_bind]
  change Post _ (began h) _ _
  cases hc : h.collections.get name with
  | none =>
    have hnone : h.stored (name, id) = none := by
      unfold Heap.stored
      rw [← content_newest, content, hc]
      rfl
    exact .inr ⟨rfl, hnone, hb⟩
  | some c =>
    dsimp only
    have hlive := hlive hc id
    rw [isLive] at hlive
    cases hd : c.directory.get id with
    | none =>
      rw [hd] at hlive
      exact .inr ⟨rfl, by simpa using hlive, hb⟩
    | some chain =>
      rw [hd] at hlive
      dsimp only
      by_cases ha : chain.isAbsent
      · rw [if_pos ha]
        exact .inr ⟨rfl, by simpa [ha] using hlive, hb⟩
      · rw [if_neg ha]
        simp only [post_bind, post_modify]
        have hl : chain.newest ≠ none := fun hn => ha (VersionChain.isAbsent_iff.mpr hn)
        have hr : Rewrites (name, id) none h
            (pushTombstone name id h.versions.next c chain (began h)) := by
          refine ⟨tombstone_evolves hs hc hd hl, formatOf_pushTombstone hc, ?_⟩
          unfold Heap.stored
          rw [store_pushTombstone hc hd]
          exact VersionStore.now_remove _ _
        refine (keeps_maybeReclaim E hr.evolves.sound).mono fun _ _ k => ?_
        exact .inl ⟨rfl, by simpa [ha] using hlive, hr.keeps k⟩

/-! ## The calls -/

/-- The encoded record and the payload a collection stores it as, when it takes it. -/
structure StoredAs (h : Heap) (name : String) (id : RecordId) (rec : Record) (bytes payload : Bytes) :
    Prop where
  ofFormat : ∃ cid codec z, h.formatOf name = some (cid, codec, z) ∧
    codec.schema.validateRecord (normalizeForStorage rec) = .ok () ∧
    codec.encode (normalizeForStorage rec) = .ok bytes ∧ payload = buildPayload E cid id bytes z

/-- A record that a collection takes, with an entry the log takes and a payload
that fits a page. -/
def Storable (h : Heap) (name : String) (id : RecordId) (rec : Record) : Prop :=
  ∃ bytes payload, StoredAs E h name id rec bytes payload ∧ Loggable (.update name id bytes) ∧
    payload.length ≤ maxPayload

theorem StoredAs.congr {h h' : Heap} {name : String} {id : RecordId} {rec : Record}
    {bytes payload : Bytes} (hst : StoredAs E h name id rec bytes payload)
    (hf : h'.formatOf = h.formatOf) : StoredAs E h' name id rec bytes payload :=
  ⟨by rw [hf]; exact hst.ofFormat⟩

theorem Storable.congr {h h' : Heap} {name : String} {id : RecordId} {rec : Record}
    (hst : Storable E h name id rec) (hf : h'.formatOf = h.formatOf) :
    Storable E h' name id rec := by
  obtain ⟨bytes, payload, hst, hop, hfit⟩ := hst
  exact ⟨bytes, payload, hst.congr E hf, hop, hfit⟩

theorem coll_spec (name : String) (h : Heap) :
    Post (coll name) h (fun c h' => h.collections.get name = some c ∧ h' = h) fun e h' =>
      h.collections.get name = none ∧ h' = h ∧ e = .noSuchCollection name := by
  unfold coll
  simp only [post_bind, post_get]
  cases h.collections.get name with
  | none => exact ⟨rfl, rfl, rfl⟩
  | some c => exact ⟨rfl, rfl⟩

theorem validate_eq_ok {c : Collection} {rec : Record} {u : Unit} (h : validate c rec = .ok u) :
    c.codec.schema.validateRecord rec = .ok () := by
  unfold validate at h
  split at h
  · assumption
  · cases h

theorem formatOf_eq {h : Heap} {name : String} {c : Collection}
    (hc : h.collections.get name = some c) :
    h.formatOf name = some (c.id, c.codec, h.compress) := by
  rw [formatOf, hc]
  rfl

/-- Log a put and carry it out. -/
theorem logged_put {placing : Bytes → HeapM RecordLocation} (hp : Places placing) (op : WalOp)
    {h : Heap} (hs : h.Sound) {name : String} {c : Collection}
    (hc : h.collections.get name = some c) (id : RecordId) (bytes : Bytes) :
    Post (log E op >>= fun _ => applyPutBy E placing name id bytes) h
      (fun _ => Rewrites (name, id) (some (buildPayload E c.id id bytes h.compress)) h)
      fun _ => Keeps h := by
  rw [post_bind]
  refine (log_spec E op h).mono (fun _ h1 w => ?_) fun _ _ w => w.keeps hs
  have hk := w.keeps hs
  obtain ⟨wal, rfl⟩ := w
  refine (applyPutBy_spec E hp hk.evolves.sound (c := c) hc id bytes).mono
    (fun _ _ r => hk.rewrites r) fun _ _ r => ?_
  rw [r.2.1]
  exact hk

theorem logged_put_returns {placing : Bytes → HeapM RecordLocation} (hp : Places placing)
    {op : WalOp} (hop : Loggable op) {h : Heap} (hs : h.Sound) {name : String} {c : Collection}
    (hc : h.collections.get name = some c) {id : RecordId} {bytes : Bytes}
    (hfit : (buildPayload E c.id id bytes h.compress).length ≤ maxPayload) :
    Returns (log E op >>= fun _ => applyPutBy E placing name id bytes) h fun _ _ => True := by
  rw [Returns, post_bind]
  refine ((log_returns E h hop).of_post (log_spec E op h)).mono fun _ h1 w => ?_
  have hk := w.keeps hs
  obtain ⟨wal, rfl⟩ := w
  refine (applyPutBy_spec E hp hk.evolves.sound (c := c) hc id bytes).mono
    (fun _ _ _ => trivial) fun _ _ r => ?_
  exact absurd r.2.2 (Nat.not_lt.mpr hfit)

/-- An update stores the record, or fails with nothing stored changed. -/
theorem update_spec {h : Heap} (hs : h.Sound) (name : String) (id : RecordId) (rec : Record) :
    Post (update E name id rec) h
      (fun existed h' => (existed = true ↔ h.stored (name, id) ≠ none) ∧
        ∃ bytes payload, StoredAs E h name id rec bytes payload ∧
          Rewrites (name, id) (some payload) h h')
      fun _ => Keeps h := by
  unfold update
  rw [post_bind]
  refine (coll_spec name h).mono (fun c h1 hc => ?_) fun _ h1 hc => ?_
  · obtain ⟨hc, rfl⟩ := hc
    rw [post_bind]
    refine post_attempt (fun _ hv => ?_) fun _ _ => Keeps.refl hs
    rw [post_bind]
    refine post_attempt (fun bytes hb => ?_) fun _ _ => Keeps.refl hs
    have hput := logged_put E places_place (.update name id bytes) hs hc id bytes
    rw [post_bind] at hput ⊢
    refine hput.mono (fun _ h2 hp => ?_) fun _ _ hk => hk
    rw [post_bind]
    refine Post.mono hp (fun _ h3 hr => ⟨isLive_iff hs hc id, bytes, _, ⟨_, _, _, formatOf_eq hc,
      validate_eq_ok hv, hb, rfl⟩, hr⟩) fun _ _ hk => hk
  · rw [hc.2.1]
    exact Keeps.refl hs

theorem update_returns {h : Heap} (hs : h.Sound) {name : String} {id : RecordId} {rec : Record}
    (hst : Storable E h name id rec) :
    Returns (update E name id rec) h fun _ _ => True := by
  obtain ⟨bytes, payload, ⟨cid, codec, z, hf, hv, hb, rfl⟩, hop, hfit⟩ := hst
  obtain ⟨c, hc, heq⟩ := Option.map_eq_some_iff.mp hf
  cases heq
  unfold update
  rw [Returns, post_bind]
  refine (coll_spec name h).mono (fun c' h1 hc' => ?_) fun _ h1 hc' => ?_
  · obtain ⟨hc', rfl⟩ := hc'
    obtain rfl : c = c' := Option.some.inj (hc.symm.trans hc')
    have hput := @logged_put_returns E _ places_place (.update name id bytes) hop _ hs _ _ hc _ _ hfit
    rw [post_bind, validate, hv, post_attempt_ok, post_bind, hb, post_attempt_ok, post_bind]
    rw [Returns, post_bind] at hput
    refine hput.mono (fun _ h1 hp => ?_) fun _ _ hF => hF
    rw [post_bind]
    exact hp.mono (fun _ _ _ => trivial) fun _ _ hF => hF
  · rw [hc] at hc'
    cases hc'.1

/-- A record that is not storable is refused with nothing stored changed. -/
theorem update_refuses {h : Heap} (hs : h.Sound) (hopen : h.replaying = false) {name : String}
    {id : RecordId} {rec : Record} (hst : ¬ Storable E h name id rec) :
    Post (update E name id rec) h (fun _ _ => False) fun _ => Keeps h := by
  suffices hno : Post (update E name id rec) h (fun _ _ => False) fun _ _ => True from
    ((update_spec E hs name id rec).and hno).mono (fun _ _ hF => hF.2) fun _ _ hk => hk.1
  unfold update
  rw [post_bind]
  refine (coll_spec name h).mono (fun c h1 hc => ?_) fun _ _ _ => trivial
  obtain ⟨hc, rfl⟩ := hc
  rw [post_bind]
  refine post_attempt (fun _ hv => ?_) fun _ _ => trivial
  rw [post_bind]
  refine post_attempt (fun bytes hb => ?_) fun _ _ => trivial
  have hstored : StoredAs E h1 name id rec bytes (buildPayload E c.id id bytes h1.compress) :=
    ⟨_, _, _, formatOf_eq hc, validate_eq_ok hv, hb, rfl⟩
  rw [post_bind]
  by_cases hop : Loggable (.update name id bytes)
  · refine (log_spec E _ h1).mono (fun _ h2 w => ?_) fun _ _ _ => trivial
    obtain ⟨wal, rfl⟩ := w
    have hlen : maxPayload < (buildPayload E c.id id bytes h1.compress).length :=
      Nat.not_le.mp fun hfit => hst ⟨bytes, _, hstored, hop, hfit⟩
    rw [post_bind]
    exact (applyPutBy_refuses E place (h := { h1 with wal := wal }) hc hlen).mono
      (fun _ _ hF => hF.elim) fun _ _ _ => trivial
  · exact (log_refuses E hopen hop).mono (fun _ _ hF => hF.elim) fun _ _ _ => trivial

/-- A delete empties the key, or fails with nothing stored changed. -/
theorem delete_spec {h : Heap} (hs : h.Sound) (name : String) (id : RecordId) :
    Post (delete E name id) h
      (fun existed h' =>
        (existed = true ∧ h.stored (name, id) ≠ none ∧ Rewrites (name, id) none h h') ∨
        (existed = false ∧ h.stored (name, id) = none ∧ Keeps h h'))
      fun _ => Keeps h := by
  unfold delete
  rw [post_bind]
  refine (coll_spec name h).mono (fun c h1 hc => ?_) fun _ h1 hc => ?_
  · obtain ⟨hc, rfl⟩ := hc
    by_cases hl : isLive c id
    · rw [if_pos hl, post_bind]
      refine (log_spec E _ h1).mono (fun _ h2 w => ?_) fun _ _ w => w.keeps hs
      have hk := w.keeps hs
      refine (applyDelete_spec E hk.evolves.sound name id).mono fun existed h3 hd => ?_
      rw [hk.stored] at hd
      rcases hd with ⟨he, hn, hr⟩ | ⟨he, hn, hr⟩
      · exact .inl ⟨he, hn, hk.rewrites hr⟩
      · exact .inr ⟨he, hn, hk.trans hr⟩
    · rw [if_neg hl]
      exact (applyDelete_spec E hs name id).mono fun _ _ hd => hd
  · rw [hc.2.1]
    exact Keeps.refl hs

theorem delete_returns {h : Heap} (hs : h.Sound) {name : String} {id : RecordId}
    (hc : (h.formatOf name).isSome)
    (hop : h.stored (name, id) = none ∨ Loggable (.delete name id)) :
    Returns (delete E name id) h fun _ _ => True := by
  obtain ⟨f, hf⟩ := Option.isSome_iff_exists.mp hc
  obtain ⟨c, hc, -⟩ := Option.map_eq_some_iff.mp hf
  unfold delete
  rw [Returns, post_bind]
  refine (coll_spec name h).mono (fun c' h1 hc' => ?_) fun _ h1 hc' => ?_
  · obtain ⟨hc', rfl⟩ := hc'
    by_cases hl : isLive c' id
    · have hop := hop.resolve_left ((isLive_iff hs hc' id).mp hl)
      rw [if_pos hl, post_bind]
      refine ((log_returns E h1 hop).of_post (log_spec E _ h1)).mono fun _ h2 w => ?_
      exact (applyDelete_spec E (w.keeps hs).evolves.sound name id).mono fun _ _ _ => trivial
    · rw [if_neg hl]
      exact (applyDelete_spec E hs name id).mono fun _ _ _ => trivial
  · rw [hc] at hc'
    cases hc'.1

theorem delete_refuses {h : Heap} (hs : h.Sound) (hopen : h.replaying = false) {name : String}
    {id : RecordId} (hlive : h.stored (name, id) ≠ none) (hop : ¬ Loggable (.delete name id)) :
    Post (delete E name id) h (fun _ _ => False) fun _ => Keeps h := by
  suffices hno : Post (delete E name id) h (fun _ _ => False) fun _ _ => True from
    ((delete_spec E hs name id).and hno).mono (fun _ _ hF => hF.2) fun _ _ hk => hk.1
  unfold delete
  rw [post_bind]
  refine (coll_spec name h).mono (fun c h1 hc => ?_) fun _ _ _ => trivial
  obtain ⟨hc, rfl⟩ := hc
  rw [if_pos ((isLive_iff hs hc id).mpr hlive), post_bind]
  exact (log_refuses E hopen hop).mono (fun _ _ hF => hF.elim) fun _ _ _ => trivial

/-- An insert stores the record where there was none, or fails with nothing stored changed. -/
theorem insertBy_spec {placing : String → RecordId → Bytes → Bytes → HeapM RecordLocation}
    (hp : ∀ n i b, Places (placing n i b)) {h : Heap} (hs : h.Sound) (name : String) (id : RecordId)
    (rec : Record) :
    Post (insertBy E (fun n i b => applyPutBy E (placing n i b) n i b) name id rec) h
      (fun _ h' => h.stored (name, id) = none ∧
        ∃ bytes payload, StoredAs E h name id rec bytes payload ∧
          Rewrites (name, id) (some payload) h h')
      fun _ => Keeps h := by
  unfold insertBy
  rw [post_bind]
  refine (coll_spec name h).mono (fun c h1 hc => ?_) fun _ h1 hc => ?_
  · obtain ⟨hc, rfl⟩ := hc
    rw [post_bind]
    refine post_attempt (fun bytes hprep => ?_) fun _ _ => Keeps.refl hs
    obtain ⟨_, hv, hrest⟩ := bind_eq_ok.mp hprep
    obtain ⟨_, hdead, hb⟩ := bind_eq_ok.mp hrest
    have hlive : ¬ h1.stored (name, id) ≠ none := by
      rw [← isLive_iff hs hc id, ensure_eq_ok.mp hdead]
      exact Bool.false_ne_true
    refine (logged_put E (hp name id bytes) (.insert name id bytes) hs hc id bytes).mono
      (fun _ h2 hr => ⟨not_not.mp hlive, bytes, _, ⟨_, _, _, formatOf_eq hc, validate_eq_ok hv, hb,
        rfl⟩, hr⟩) fun _ _ hk => hk
  · rw [hc.2.1]
    exact Keeps.refl hs

/-! ## Calls on the tables

Creating a collection adds one without records, and the declarations of indexes
and clusterings change nothing that is stored. -/

/-- A collection without records is there that was not. -/
structure Registers (name : String) (h h' : Heap) : Prop where
  sound : h'.Sound
  format : ∃ f, h'.formatOf = Function.update h.formatOf name (some f)
  stored : h'.stored = h.stored
  empty : ∀ id, h'.stored (name, id) = none

theorem register_registers {h : Heap} (hs : h.Sound) {name : String}
    (hnone : h.collections.get name = none) (schema : Schema) :
    Registers name h (register name schema h) := by
  have hchain : (register name schema h).chainOf = h.chainOf := by
    funext k
    unfold chainOf register registerWithId
    rw [OrdMap.get_insert]
    split_ifs with hk
    · rw [hk, hnone]
      rfl
    · rfl
  have hstore : (register name schema h).store = h.store := by
    unfold store
    rw [hchain]
    rfl
  have hstored : (register name schema h).stored = h.stored := congrArg VersionStore.now hstore
  refine ⟨⟨hstore ▸ hs.store, hs.fsm, hs.next⟩, ⟨(h.nextCollectionId, .new schema, h.compress), ?_⟩,
    hstored, fun id => ?_⟩
  · funext m
    unfold formatOf register registerWithId
    rw [OrdMap.get_insert, Function.update_apply]
    split_ifs
    · rfl
    · rfl
  · rw [hstored]
    unfold stored
    rw [← content_newest, content, hnone]
    rfl

theorem createCollection_spec {h : Heap} (hs : h.Sound) (name : String) (schema : Schema) :
    Post (createCollection E name schema) h
      (fun _ h' => h.formatOf name = none ∧ Registers name h h') fun _ => Keeps h := by
  unfold createCollection
  rw [post_bind, post_get]
  by_cases hin : h.collections.contains name
  · rw [if_pos hin]
    exact Keeps.refl hs
  · rw [if_neg hin, post_bind]
    have hnone : h.collections.get name = none := Option.not_isSome_iff_eq_none.mp hin
    refine (log_spec E _ h).mono (fun _ h1 w => ?_) fun _ _ w => w.keeps hs
    have hk := w.keeps hs
    obtain ⟨wal, rfl⟩ := w
    rw [post_modify]
    have hr := register_registers hk.evolves.sound (h := { h with wal := wal }) hnone schema
    exact ⟨by rw [formatOf, hnone]; rfl, hr.sound, hr.format, hr.stored, hr.empty⟩

theorem recordIndex_spec {h : Heap} (hs : h.Sound) (d : IndexDef) :
    Post (recordIndex E d) h (fun _ => Keeps h) fun _ => Keeps h := by
  unfold recordIndex
  rw [post_bind, post_get]
  by_cases hin : d ∈ h.indexDefs
  · rw [if_pos hin]
    exact Keeps.refl hs
  · rw [if_neg hin, post_bind]
    refine (log_spec E _ h).mono (fun _ h1 w => ?_) fun _ _ w => w.keeps hs
    obtain ⟨wal, rfl⟩ := w
    rw [post_modify]
    exact ⟨.of_same hs rfl rfl rfl rfl rfl, rfl, rfl⟩

theorem forgetIndex_spec {h : Heap} (hs : h.Sound) (d : IndexDef) :
    Post (forgetIndex E d) h (fun _ => Keeps h) fun _ => Keeps h := by
  have hk : Keeps h (removeIndex d h) := ⟨.of_same hs rfl rfl rfl rfl rfl, rfl, rfl⟩
  unfold forgetIndex
  simp only [post_bind, post_get, post_modify]
  split_ifs
  · refine (log_spec E _ _).mono (fun _ h1 w => ?_) fun _ _ w => ?_
    · exact hk.trans (w.keeps hk.evolves.sound)
    · exact hk.trans (w.keeps hk.evolves.sound)
  · exact hk

/-- Every collection's codec is the one its schema gives. -/
def Built (h : Heap) : Prop := ∀ name codec, h.codecOf name = some codec → codec = .new codec.schema

theorem built_fresh : Built fresh := fun name codec hc => by
  simp [codecOf, fresh, unopened] at hc

theorem Evolves.built {h h' : Heap} (he : Evolves h h') (hb : h.Built) : h'.Built := by
  unfold Built
  rw [he.codecs]
  exact hb

theorem Built.register {h : Heap} (hb : h.Built) (name : String) (schema : Schema) :
    (register name schema h).Built := by
  intro n codec hc
  unfold codecOf at hc
  rw [Heap.register, registerWithId, OrdMap.get_insert] at hc
  split at hc
  · obtain rfl := Option.some.inj hc
    rfl
  · exact hb n codec hc

end Heap

end Adabt.Storage
