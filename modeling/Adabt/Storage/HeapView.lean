import Adabt.Library.VersionStore
import Adabt.Storage.Recovery

/-! # The heap as a versioned store

Forgetting pages, codecs and tables, a heap is a versioned store: its keys are
collection names with record ids, its memory the live slots of the pool. What a
read answers depends only on that store and on the collection's codec. -/

set_option autoImplicit false

namespace Adabt.Storage
open Adabt.Core Adabt.Library

namespace Heap

abbrev Key := String × RecordId

def chainOf (h : Heap) (k : Key) : Chain RecordLocation :=
  (((h.collections.get k.1).bind (·.directory.get k.2)).map (·.versions)).getD []

def store (h : Heap) : VersionStore Key RecordLocation Bytes where
  chain := h.chainOf
  mem := h.pool.read
  next := h.versions.next
  opened := h.versions.opened

def codecOf (h : Heap) (name : String) : Option RecordCodec :=
  (h.collections.get name).map (·.codec)

variable (E : Env)

def decodePayload (codec : RecordCodec) (payload : Bytes) : Except Error Record := do
  let bytes ← unwrapPayload E payload
  codec.decode bytes

/-- What a lookup answers from a codec and the payload it found. -/
def answer (name : String) : Option RecordCodec → Option Bytes → Except Error (Option Record)
  | none, _ => .error (.noSuchCollection name)
  | some _, none => .ok none
  | some codec, some payload => do
    let r ← decodePayload E codec payload
    return some r

def decodeRows (codec : RecordCodec) :
    List (RecordId × Bytes) → Except Error (List (RecordId × Record))
  | [] => .ok []
  | (id, payload) :: rest => do
    let r ← decodePayload E codec payload
    let rows ← decodeRows codec rest
    return (id, r) :: rows

/-- The payload under the version that `pick` chooses. -/
def content (pick : VersionChain → Option RecordLocation) (h : Heap) (name : String)
    (id : RecordId) : Option Bytes :=
  (((h.collections.get name).bind (·.directory.get id)).bind pick).bind h.pool.read

/-- Every version that `pick` chooses is in a live slot. -/
def Readable (pick : VersionChain → Option RecordLocation) (h : Heap) : Prop :=
  ∀ name id loc, ((h.collections.get name).bind (·.directory.get id)).bind pick = some loc →
    h.pool.read loc ≠ none

theorem readAt_eq {h : Heap} {name : String} {c : Collection} {loc : RecordLocation}
    {payload : Bytes} (hc : h.collections.get name = some c)
    (hp : h.pool.read loc = some payload) :
    readAt E h name loc = decodePayload E c.codec payload := by
  obtain ⟨page, hpage⟩ := Pool.get_of_lt (Pool.lt_of_read hp)
  have hslot : page.get loc.slot = .ok payload :=
    Page.get_eq_ok.mpr ((Pool.read_eq_get hpage loc.slot).symm.trans hp)
  unfold readAt
  simp only [hc, hpage, hslot, ok_bind]
  rfl

theorem getBy_eq {pick : VersionChain → Option RecordLocation} {h : Heap} (hr : Readable pick h)
    (name : String) (id : RecordId) :
    getBy E pick h name id = answer E name (h.codecOf name) (content pick h name id) := by
  unfold getBy codecOf content
  cases hc : h.collections.get name with
  | none => rfl
  | some c =>
    simp only [Option.map_some, Option.bind_some]
    cases hl : (c.directory.get id).bind pick with
    | none => rfl
    | some loc =>
      obtain ⟨payload, hp⟩ := Option.ne_none_iff_exists'.mp
        (hr name id loc (by rw [hc, Option.bind_some, hl]))
      simp only [Option.bind_some, hp, answer, readAt_eq E hc hp]

/-- The payloads a scan decodes, by record id. -/
def rows (pick : VersionChain → Option RecordLocation) (h : Heap) (c : Collection) :
    OrdMap RecordId Bytes :=
  c.directory.filterMapVal fun _ chain => (pick chain).bind h.pool.read

theorem readRows_eq {h : Heap} {name : String} {c : Collection}
    (hc : h.collections.get name = some c) (pick : VersionChain → Option RecordLocation)
    (es : List (RecordId × VersionChain))
    (hr : ∀ e ∈ es, ∀ loc, pick e.2 = some loc → h.pool.read loc ≠ none) :
    readRows E h name (es.filterMap fun e => (pick e.2).map fun loc => (e.1, loc)) =
      decodeRows E c.codec
        (es.filterMap fun e => ((pick e.2).bind h.pool.read).map fun p => (e.1, p)) := by
  induction es with
  | nil => rfl
  | cons e es ih =>
    have ih := ih fun x hx => hr x (List.mem_cons_of_mem _ hx)
    cases hl : pick e.2 with
    | none => simpa [hl] using ih
    | some loc =>
      obtain ⟨payload, hp⟩ := Option.ne_none_iff_exists'.mp (hr e (by simp) loc hl)
      simp only [List.filterMap_cons, hl, hp, Option.map_some, Option.bind_some, readRows,
        decodeRows, readAt_eq E hc hp, ih]

theorem scanBy_eq {pick : VersionChain → Option RecordLocation} {h : Heap} (hr : Readable pick h)
    {name : String} {c : Collection} (hc : h.collections.get name = some c) :
    scanBy E pick h name = decodeRows E c.codec (rows pick h c).entries := by
  unfold scanBy
  simp only [hc]
  refine readRows_eq E hc pick c.directory.entries fun e he loc hl => hr name e.1 loc ?_
  rw [hc, Option.bind_some, (OrdMap.mem_entries _ _ _).mp he, Option.bind_some, hl]

theorem rows_get (pick : VersionChain → Option RecordLocation) {h : Heap} {name : String}
    {c : Collection} (hc : h.collections.get name = some c) (id : RecordId) :
    (rows pick h c).get id = content pick h name id := by
  rw [rows, OrdMap.get_filterMapVal, content, hc, Option.bind_some]
  cases c.directory.get id <;> rfl

/-- Two heaps with the same codec and the same contents give the same answers. -/
theorem answers_congr {pick pick' : VersionChain → Option RecordLocation} {h h' : Heap}
    (hr : Readable pick h) (hr' : Readable pick' h') {name : String}
    (hcodec : h'.codecOf name = h.codecOf name)
    (hcontent : ∀ id, content pick' h' name id = content pick h name id) :
    (∀ id, getBy E pick' h' name id = getBy E pick h name id) ∧
      scanBy E pick' h' name = scanBy E pick h name := by
  constructor
  · intro id
    rw [getBy_eq E hr, getBy_eq E hr', hcodec, hcontent]
  · unfold codecOf at hcodec
    cases hc : h.collections.get name with
    | none =>
      rw [hc, Option.map_none, Option.map_eq_none_iff] at hcodec
      simp only [scanBy, hc, hcodec]
    | some c =>
      rw [hc, Option.map_some, Option.map_eq_some_iff] at hcodec
      obtain ⟨c', hc', hcc⟩ := hcodec
      have hrows : rows pick' h' c' = rows pick h c := by
        ext id : 1
        rw [rows_get pick' hc', rows_get pick hc, hcontent]
      rw [scanBy_eq E hr hc, scanBy_eq E hr' hc', hcc, hrows]

theorem content_newest (h : Heap) (name : String) (id : RecordId) :
    content (·.newest) h name id = h.store.now (name, id) := by
  unfold content VersionStore.now store chainOf
  dsimp only
  cases (h.collections.get name).bind (·.directory.get id) <;> rfl

theorem content_visibleAt (h : Heap) (name : String) (id : RecordId) (t : ℕ) :
    content (·.visibleAt t) h name id = h.store.see t (name, id) := by
  unfold content VersionStore.see store chainOf
  dsimp only
  cases (h.collections.get name).bind (·.directory.get id) <;> rfl

theorem chainOf_eq {h : Heap} {name : String} {c : Collection} {id : RecordId}
    {chain : VersionChain} (hc : h.collections.get name = some c)
    (hd : c.directory.get id = some chain) : h.chainOf (name, id) = chain.versions := by
  unfold chainOf
  rw [hc, Option.bind_some, hd]
  rfl

theorem owns_of_mem {h : Heap} {name : String} {c : Collection} {id : RecordId}
    {chain : VersionChain} {t : ℕ} {loc : RecordLocation}
    (hc : h.collections.get name = some c) (hd : c.directory.get id = some chain)
    (hm : (t, some loc) ∈ chain.versions) : h.store.Owns loc (name, id) t := by
  change (t, some loc) ∈ h.chainOf (name, id)
  rwa [chainOf_eq hc hd]

theorem readable_newest {h : Heap} (hs : h.store.Sound) : Readable (·.newest) h := by
  intro name id loc hl
  obtain ⟨chain, hd, hn⟩ := Option.bind_eq_some_iff.mp hl
  obtain ⟨c, hc, hd⟩ := Option.bind_eq_some_iff.mp hd
  obtain ⟨t, ht⟩ := Chain.mem_of_newest hn
  exact hs.live (owns_of_mem hc hd ht)

theorem readable_visibleAt {h : Heap} (hs : h.store.Sound) (t : ℕ) :
    Readable (·.visibleAt t) h := by
  intro name id loc hl
  obtain ⟨chain, hd, hn⟩ := Option.bind_eq_some_iff.mp hl
  obtain ⟨c, hc, hd⟩ := Option.bind_eq_some_iff.mp hd
  obtain ⟨u, -, hu⟩ := Chain.mem_of_visible hn
  exact hs.live (owns_of_mem hc hd hu)

end Heap

end Adabt.Storage
