import Adabt.Storage.Placement

/-! # Writing versions

The physical writes as steps of the versioned store: a put appends a version at
a fresh location, a delete appends a tombstone, and a reclaim trims every chain
to the tracker's horizon and frees what the chains no longer name. -/

set_option autoImplicit false

namespace Adabt.Storage
open Adabt.Core Adabt.Library

namespace Heap

variable (E : Env)

/-- What every operation relies on: the versions are in order, each in a live slot
of its own, and the free-space map names pages of the file. -/
structure Sound (h : Heap) : Prop where
  store : h.store.Sound
  fsm : h.FsmInRange
  next : 0 < h.versions.next

theorem owned_lt {h : Heap} (hs : h.store.Sound) {loc : RecordLocation} {k : Key} {t : ℕ}
    (ho : h.store.Owns loc k t) : loc.page < h.pool.pageCount := by
  obtain ⟨b, hb⟩ := Option.ne_none_iff_exists'.mp (hs.live ho)
  exact Pool.lt_of_read hb

/-! ## Reclaiming -/

def chainAt (h : Heap) (k : Key) : Option VersionChain :=
  (h.collections.get k.1).bind (·.directory.get k.2)

theorem chainOf_def (h : Heap) (k : Key) :
    h.chainOf k = ((h.chainAt k).map (·.versions)).getD [] := rfl

theorem chainAt_mem {h : Heap} {k : Key} {chain : VersionChain} (hc : h.chainAt k = some chain)
    {v : ℕ × Option RecordLocation} (hv : v ∈ chain.versions) : v ∈ h.store.chain k := by
  change v ∈ h.chainOf k
  rwa [chainOf_def, hc]

theorem mem_freedLocations {horizon : ℕ} {d : OrdMap RecordId VersionChain}
    {loc : RecordLocation} :
    loc ∈ freedLocations horizon d ↔
      ∃ id chain, d.get id = some chain ∧ ∃ t, (t, some loc) ∈ chain.gone horizon := by
  simp only [freedLocations, List.mem_flatMap, OrdMap.mem_values, VersionChain.reclaimTo_freed,
    List.mem_filterMap]
  constructor
  · rintro ⟨chain, ⟨id, hid⟩, ⟨t, l⟩, hv, hl⟩
    exact ⟨id, chain, hid, t, (show l = some loc from hl) ▸ hv⟩
  · rintro ⟨id, chain, hid, t, hv⟩
    exact ⟨chain, ⟨id, hid⟩, (t, some loc), hv, rfl⟩

theorem mem_freedBy {h : Heap} {loc : RecordLocation} :
    loc ∈ freedBy E h ↔ ∃ k chain, h.chainAt k = some chain ∧
      ∃ t, (t, some loc) ∈ chain.gone h.versions.reclaimHorizon := by
  simp only [freedBy, List.mem_flatMap, (E.names_perm _ _).mem_iff, OrdMap.mem_keys]
  constructor
  · rintro ⟨name, hn, hl⟩
    obtain ⟨c, hc⟩ := Option.isSome_iff_exists.mp hn
    rw [hc, Option.map_some, Option.getD_some, mem_freedLocations] at hl
    obtain ⟨id, chain, hd, t, ht⟩ := hl
    exact ⟨(name, id), chain, by rw [chainAt, hc, Option.bind_some, hd], t, ht⟩
  · rintro ⟨⟨name, id⟩, chain, hk, t, ht⟩
    obtain ⟨c, hc, hd⟩ := Option.bind_eq_some_iff.mp hk
    refine ⟨name, Option.isSome_iff_exists.mpr ⟨c, hc⟩, ?_⟩
    rw [hc, Option.map_some, Option.getD_some, mem_freedLocations]
    exact ⟨id, chain, hd, t, ht⟩

theorem freedBy_owned {h : Heap} {loc : RecordLocation} (hl : loc ∈ freedBy E h) :
    ∃ k t, h.store.Owns loc k t := by
  obtain ⟨k, chain, hc, t, ht⟩ := (mem_freedBy E).mp hl
  exact ⟨k, t, chainAt_mem hc ((chain.reclaimTo_trim _).mem_gone ht)⟩

theorem chainAt_trimAll (h : Heap) (k : Key) :
    (trimAll h).chainAt k =
      ((h.chainAt k).map fun c => (c.reclaimTo h.versions.reclaimHorizon).1).filter
        fun c => !(c.len = 1 && c.isAbsent) := by
  unfold chainAt trimAll
  simp only [OrdMap.get_mapVal]
  cases h.collections.get k.1 with
  | none => rfl
  | some c => simp [trimDirectory, OrdMap.get_filter]

/-- The versions a reclaim drops under a key. -/
def goneOf (h : Heap) (k : Key) : Chain RecordLocation :=
  ((h.chainAt k).map (·.gone h.versions.reclaimHorizon)).getD []

/-- The versions a reclaim keeps under a key. -/
def keptOf (h : Heap) (k : Key) : Chain RecordLocation :=
  ((h.chainAt k).map fun c => (c.reclaimTo h.versions.reclaimHorizon).1.versions).getD []

theorem trim_keptOf (h : Heap) (k : Key) :
    Chain.Trim h.versions.reclaimHorizon (h.chainOf k) (h.goneOf k) (h.keptOf k) := by
  unfold goneOf keptOf
  rw [chainOf_def]
  cases h.chainAt k with
  | none => exact ⟨rfl, fun hn => absurd rfl hn, fun v hv => by cases hv⟩
  | some c => exact c.reclaimTo_trim _

theorem mem_freedBy_iff {h : Heap} {loc : RecordLocation} :
    loc ∈ freedBy E h ↔ ∃ k t, (t, some loc) ∈ h.goneOf k := by
  rw [mem_freedBy]
  constructor
  · rintro ⟨k, chain, hk, t, ht⟩
    exact ⟨k, t, by rwa [goneOf, hk]⟩
  · rintro ⟨k, t, ht⟩
    cases hk : h.chainAt k with
    | none => simp [goneOf, hk] at ht
    | some c => exact ⟨k, c, hk, t, by simpa [goneOf, hk] using ht⟩

theorem chainOf_trimAll (h : Heap) (k : Key) :
    (trimAll h).chainOf k = Chain.settle (h.keptOf k) := by
  unfold keptOf
  rw [chainOf_def, chainAt_trimAll]
  cases h.chainAt k with
  | none => rfl
  | some c =>
    simp only [Option.map_some, Option.getD_some, VersionChain.settle_versions]
    by_cases hd : (c.reclaimTo h.versions.reclaimHorizon).1.len = 1 &&
        (c.reclaimTo h.versions.reclaimHorizon).1.isAbsent
    · simp [Option.filter, hd]
    · simp [Option.filter, hd]

/-- A reclaim trimmed every chain and emptied the slots it freed. -/
def Reclaimed (h h' : Heap) : Prop :=
  ∃ h1, Released (trimAll h) (freedBy E h) h1 ∧
    h' = { h1 with retained := h1.retained - (freedBy E h).length }

theorem reclaim_spec {h : Heap} (hs : h.store.Sound) :
    Returns (reclaim E) h fun n h' => n = (freedBy E h).length ∧ Reclaimed E h h' := by
  unfold reclaim
  simp only [post_bind, post_get, post_modify, post_pure]
  refine (release_spec (freedBy E h) fun l hl => ?_).mono fun _ h1 a => ⟨trivial, h1, a, rfl⟩
  obtain ⟨k, t, ho⟩ := freedBy_owned E hl
  exact owned_lt hs ho

theorem Reclaimed.chainOf {h h' : Heap} (r : Reclaimed E h h') : h'.chainOf = (trimAll h).chainOf := by
  obtain ⟨h1, a, rfl⟩ := r
  change h1.chainOf = _
  rw [a.only]
  rfl

theorem Reclaimed.trimmed {h h' : Heap} (r : Reclaimed E h h') :
    VersionStore.Trimmed h.versions.reclaimHorizon h.store h'.store := by
  have hchain := r.chainOf
  obtain ⟨h1, a, rfl⟩ := r
  have hversions : h1.versions = h.versions := by rw [a.only]; rfl
  refine ⟨congrArg VersionTracker.next hversions, congrArg VersionTracker.opened hversions,
    h.goneOf, h.keptOf, h.trim_keptOf, fun k => ?_, fun loc hg => ?_, fun loc hg => ?_⟩
  · exact (congrFun hchain k).trans (chainOf_trimAll h k)
  · exact (a.read loc).trans (if_pos ((mem_freedBy_iff E).mpr hg))
  · exact (a.read loc).trans (if_neg fun hm => hg ((mem_freedBy_iff E).mp hm))

theorem Reclaimed.fsm {h h' : Heap} (r : Reclaimed E h h') (hf : h.FsmInRange) : h'.FsmInRange := by
  obtain ⟨h1, a, rfl⟩ := r
  exact a.fsm hf

theorem Reclaimed.codecOf {h h' : Heap} (r : Reclaimed E h h') : h'.codecOf = h.codecOf := by
  obtain ⟨h1, a, rfl⟩ := r
  funext name
  change h1.codecOf name = _
  rw [a.only]
  unfold Heap.codecOf trimAll
  simp only [OrdMap.get_mapVal, Option.map_map]
  rfl

/-! ## Writing -/

/-- The heap after a stamp was handed out. -/
def began (h : Heap) : Heap := { h with versions := h.versions.beginWrite }

theorem chainOf_setCollection {h : Heap} {name : String} {c d : Collection} {id : RecordId}
    {chain : VersionChain} (hc : h.collections.get name = some c)
    (hd : d.directory = c.directory.insert id chain) :
    (setCollection name d h).chainOf = Function.update h.chainOf (name, id) chain.versions := by
  funext k
  obtain ⟨m, r⟩ := k
  unfold chainOf setCollection
  simp only [OrdMap.get_insert, Function.update_apply, Prod.mk.injEq]
  by_cases hm : m = name
  · subst hm
    rw [if_pos rfl, Option.bind_some, hd, OrdMap.get_insert]
    by_cases hr : r = id
    · simp [hr]
    · simp [hr, hc]
  · simp [hm]

theorem chainOf_getD {h : Heap} {name : String} {c : Collection} (id : RecordId)
    (hc : h.collections.get name = some c) :
    h.chainOf (name, id) = ((c.directory.get id).getD .empty).versions := by
  unfold chainOf
  rw [hc, Option.bind_some]
  cases c.directory.get id <;> rfl

theorem chainOf_pushVersion {h : Heap} {name : String} {c : Collection} (id : RecordId) (txn : ℕ)
    (loc : RecordLocation) (hc : h.collections.get name = some c) :
    (pushVersion name id txn loc h).chainOf =
      Function.update h.chainOf (name, id) (h.chainOf (name, id) ++ [(txn, some loc)]) := by
  unfold pushVersion
  rw [hc, chainOf_getD id hc]
  exact chainOf_setCollection (d := { c with
    directory := c.directory.insert id (((c.directory.get id).getD .empty).push txn (some loc))
    nextRecordId := max c.nextRecordId (id + 1) }) hc rfl

theorem pool_pushVersion (name : String) (id : RecordId) (txn : ℕ) (loc : RecordLocation)
    (h : Heap) : (pushVersion name id txn loc h).pool = h.pool := by
  unfold pushVersion
  cases h.collections.get name <;> rfl

theorem fsm_pushVersion (name : String) (id : RecordId) (txn : ℕ) (loc : RecordLocation)
    (h : Heap) : (pushVersion name id txn loc h).fsm = h.fsm := by
  unfold pushVersion
  cases h.collections.get name <;> rfl

theorem versions_pushVersion (name : String) (id : RecordId) (txn : ℕ) (loc : RecordLocation)
    (h : Heap) : (pushVersion name id txn loc h).versions = h.versions := by
  unfold pushVersion
  cases h.collections.get name <;> rfl

theorem codecOf_setCollection {h : Heap} {name : String} {c d : Collection}
    (hc : h.collections.get name = some c) (hcodec : d.codec = c.codec) :
    (setCollection name d h).codecOf = h.codecOf := by
  funext m
  unfold codecOf setCollection
  simp only [OrdMap.get_insert]
  by_cases hm : m = name
  · simp [hm, hc, hcodec]
  · simp [hm]

theorem codecOf_pushVersion (name : String) (id : RecordId) (txn : ℕ) (loc : RecordLocation)
    (h : Heap) : (pushVersion name id txn loc h).codecOf = h.codecOf := by
  unfold pushVersion
  cases hc : h.collections.get name with
  | none => rfl
  | some c =>
    exact codecOf_setCollection (d := { c with
      directory := c.directory.insert id (((c.directory.get id).getD .empty).push txn (some loc))
      nextRecordId := max c.nextRecordId (id + 1) }) hc rfl

/-- A version was written: its payload placed, and the version pushed. -/
def Wrote (name : String) (c : Collection) (id : RecordId) (bytes : Bytes) (h h' : Heap) : Prop :=
  ∃ loc h1, Placed (began h) (buildPayload E c.id id bytes h.compress) loc h1 ∧
    h' = pushVersion name id h.versions.next loc h1

/-- A way of placing payloads that never fails on one that fits a page. -/
def Places (placing : Bytes → HeapM RecordLocation) : Prop :=
  ∀ {h : Heap} {payload : Bytes}, h.FsmInRange → payload ≠ [] → payload.length ≤ maxPayload →
    Returns (placing payload) h fun loc h' => Placed h payload loc h'

theorem places_place : Places place := fun hf hne hlen => place_spec hf hne hlen

theorem places_placeKeyed (name : String) (key : Int64) : Places (placeKeyed name key) :=
  fun hf hne hlen => placeKeyed_spec hf hne hlen name key

theorem buildPayload_ne_nil (cid : CollectionId) (id : RecordId) (bytes : Bytes) (z : Bool) :
    buildPayload E cid id bytes z ≠ [] := by
  unfold buildPayload
  split
  simp

/-- A write is refused, with nothing changed, exactly when its payload exceeds a page. -/
theorem writeVersion_spec {placing : Bytes → HeapM RecordLocation} (hp : Places placing)
    {h : Heap} (hf : h.FsmInRange) (name : String) (c : Collection) (id : RecordId)
    (bytes : Bytes) :
    Post (writeVersion E placing name c id bytes) h (fun _ h' => Wrote E name c id bytes h h')
      fun e h' => e = exceedsPage bytes.length ∧ h' = h ∧
        maxPayload < (buildPayload E c.id id bytes h.compress).length := by
  unfold writeVersion
  simp only [post_bind, post_get]
  by_cases hlen : maxPayload < (buildPayload E c.id id bytes h.compress).length
  · rw [if_pos hlen]
    exact ⟨rfl, rfl, hlen⟩
  · rw [if_neg hlen]
    simp only [post_bind]
    change Post (placing _) (began h) _ _
    have hf' : (began h).FsmInRange := hf
    refine (hp hf' (buildPayload_ne_nil E _ _ _ _) (Nat.not_lt.mp hlen)).mono fun loc h1 p => ?_
    rw [post_modify]
    exact ⟨loc, h1, p, rfl⟩

theorem Wrote.store {name : String} {c : Collection} {id : RecordId} {bytes : Bytes}
    {h h' : Heap} (w : Wrote E name c id bytes h h') (hc : h.collections.get name = some c) :
    ∃ loc, h.pool.read loc = none ∧
      h'.store = h.store.put (name, id) loc (buildPayload E c.id id bytes h.compress) := by
  obtain ⟨loc, h1, p, rfl⟩ := w
  refine ⟨loc, p.fresh, ?_⟩
  obtain ⟨cl, hc1⟩ := p.only.get_some (h := began h) hc
  have hchain : h1.chainOf = h.chainOf := p.only.chainOf
  have hversions : h1.versions = h.versions.beginWrite := p.only.versions
  unfold Heap.store VersionStore.put VersionStore.append
  rw [chainOf_pushVersion id _ loc hc1, pool_pushVersion, versions_pushVersion, hchain, p.read,
    hversions]
  rfl

theorem Wrote.fsm {name : String} {c : Collection} {id : RecordId} {bytes : Bytes}
    {h h' : Heap} (w : Wrote E name c id bytes h h') : h'.FsmInRange := by
  obtain ⟨loc, h1, p, rfl⟩ := w
  unfold FsmInRange
  rw [fsm_pushVersion, pool_pushVersion]
  exact p.fsm

theorem Wrote.codecOf {name : String} {c : Collection} {id : RecordId} {bytes : Bytes}
    {h h' : Heap} (w : Wrote E name c id bytes h h') : h'.codecOf = h.codecOf := by
  obtain ⟨loc, h1, p, rfl⟩ := w
  rw [codecOf_pushVersion]
  exact p.only.codecOf

theorem store_pushTombstone {h : Heap} {name : String} {c : Collection} {id : RecordId}
    {chain : VersionChain} (hc : h.collections.get name = some c)
    (hd : c.directory.get id = some chain) :
    (pushTombstone name id h.versions.next c chain (began h)).store =
      h.store.append (name, id) none := by
  have hchain := chainOf_setCollection (h := began h) (d := { c with
    directory := c.directory.insert id (chain.push h.versions.next none) }) hc rfl
  unfold Heap.store VersionStore.append
  change VersionStore.mk (setCollection name _ (began h)).chainOf _ _ _ = _
  rw [hchain]
  have hk : h.chainOf (name, id) = chain.versions := chainOf_eq hc hd
  simp only [hk]
  rfl

end Heap

end Adabt.Storage
