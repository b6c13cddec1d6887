import Adabt.Storage.Contents

/-! # Reading back

When every stored payload of a collection decodes, a lookup and a scan answer
with the decoded records, and a put or a delete changes one of them. -/

set_option autoImplicit false

namespace Adabt.Storage
open Adabt.Core Adabt.Library

namespace Heap

variable (E : Env)

theorem unwrap_buildPayload (cid : CollectionId) (id : RecordId) (bytes : Bytes) (z : Bool) :
    unwrapPayload E (buildPayload E cid id bytes z) = .ok bytes := by
  have hwrap : ∀ (e : Encoding) (body : Bytes),
      unwrapPayload E (leBytes 4 cid ++ leBytes 8 id ++ e.bit :: body) = decompress E.lz4 e body := by
    intro e body
    have hlen : (leBytes 4 cid ++ leBytes 8 id).length = 12 := by
      rw [List.length_append, leBytes_length, leBytes_length]
    have hget : (leBytes 4 cid ++ leBytes 8 id ++ e.bit :: body).getD (slotPrefix - 1) 0 = e.bit := by
      rw [List.getD_eq_getElem?_getD, List.getElem?_append_right (by rw [hlen]; decide), hlen]
      rfl
    have hdrop : (leBytes 4 cid ++ leBytes 8 id ++ e.bit :: body).drop slotPrefix = body := by
      rw [List.drop_append, List.drop_eq_nil_of_le (by rw [hlen]; decide), hlen]
      rfl
    have hle : slotPrefix ≤ (leBytes 4 cid ++ leBytes 8 id ++ e.bit :: body).length := by
      rw [List.length_append, hlen, List.length_cons]
      unfold slotPrefix
      omega
    unfold unwrapPayload
    rw [ensure_eq_ok (u := ()).mpr hle, ok_bind, hget, Encoding.fromBit_bit, ok_bind, hdrop]
  unfold buildPayload
  cases z with
  | false => exact hwrap .raw bytes
  | true =>
    dsimp only
    rw [if_pos rfl]
    exact (hwrap _ _).trans (decompress_maybeCompress E.lz4 bytes)

theorem decode_buildPayload (codec : RecordCodec) (cid : CollectionId) (id : RecordId)
    (bytes : Bytes) (z : Bool) :
    decodePayload E codec (buildPayload E cid id bytes z) = codec.decode bytes := by
  unfold decodePayload
  rw [unwrap_buildPayload, ok_bind]

/-- The collection is there, and each payload stored for it decodes to its record. -/
def Reads (h : Heap) (name : String) (records : OrdMap RecordId Record) : Prop :=
  ∃ f, h.formatOf name = some f ∧ ∀ id,
    (h.stored (name, id)).map (decodePayload E f.2.1) = (records.get id).map Except.ok

variable {E}

namespace Reads

variable {h h' : Heap} {name : String} {records : OrdMap RecordId Record} {id : RecordId}

theorem codec (hr : Reads E h name records) : ∃ c, h.collections.get name = some c ∧ ∀ id,
    (h.stored (name, id)).map (decodePayload E c.codec) = (records.get id).map Except.ok := by
  obtain ⟨f, hf, hr⟩ := hr
  obtain ⟨c, hc, rfl⟩ := Option.map_eq_some_iff.mp hf
  exact ⟨c, hc, hr⟩

theorem unique {records' : OrdMap RecordId Record} (hr : Reads E h name records)
    (hr' : Reads E h name records') : records = records' := by
  obtain ⟨f, hf, hr⟩ := hr
  obtain ⟨f', hf', hr'⟩ := hr'
  obtain rfl : f = f' := Option.some.inj (hf.symm.trans hf')
  ext id : 1
  have heq := (hr id).symm.trans (hr' id)
  exact Option.map_injective (fun a b hab => Except.ok.inj hab) heq

/-- A lookup answers with the record. -/
theorem get (hr : Reads E h name records) (hs : h.Sound) (id : RecordId) :
    getRecord E h name id = .ok (records.get id) := by
  obtain ⟨c, hc, hr⟩ := hr.codec
  have hr := hr id
  unfold getRecord
  rw [getBy_eq E (readable_newest hs.store), codecOf, hc, content_newest]
  change answer E name (some c.codec) (h.stored (name, id)) = _
  cases hp : h.stored (name, id) with
  | none =>
    rw [hp, Option.map_none, eq_comm, Option.map_eq_none_iff] at hr
    rw [hr]
    rfl
  | some payload =>
    rw [hp, Option.map_some, eq_comm, Option.map_eq_some_iff] at hr
    obtain ⟨r, hr, hd⟩ := hr
    rw [hr, answer, ← hd]
    rfl

theorem decodeRows_ok {codec : RecordCodec} {f : RecordId → Bytes → Record}
    {es : List (RecordId × Bytes)} (h : ∀ e ∈ es, decodePayload E codec e.2 = .ok (f e.1 e.2)) :
    decodeRows E codec es = .ok (es.map fun e => (e.1, f e.1 e.2)) := by
  induction es with
  | nil => rfl
  | cons e es ih =>
    rw [decodeRows, h e List.mem_cons_self, ok_bind,
      ih fun x hx => h x (List.mem_cons_of_mem _ hx), ok_bind]
    rfl

/-- A scan answers with all of them. -/
theorem scan (hr : Reads E h name records) (hs : h.Sound) :
    Heap.scan E h name = .ok records.entries := by
  obtain ⟨c, hc, hr⟩ := hr.codec
  let decoded (_ : RecordId) (p : Bytes) : Record := match decodePayload E c.codec p with
    | .ok r => r
    | .error _ => ∅
  have hdecoded : ∀ id p, h.stored (name, id) = some p →
      decodePayload E c.codec p = .ok (decoded id p) := by
    intro id p hp
    have hr := hr id
    rw [hp, Option.map_some, eq_comm, Option.map_eq_some_iff] at hr
    obtain ⟨r, -, hd⟩ := hr
    simp only [decoded, ← hd]
  have hget : ∀ id, (rows (·.newest) h c).get id = h.stored (name, id) := fun id =>
    (rows_get _ hc id).trans (content_newest h name id)
  have hmap : (rows (·.newest) h c).mapVal decoded = records := by
    ext id : 1
    rw [OrdMap.get_mapVal, hget]
    have hr := hr id
    cases hp : h.stored (name, id) with
    | none =>
      rw [hp, Option.map_none, eq_comm, Option.map_eq_none_iff] at hr
      rw [hr]
      rfl
    | some p =>
      rw [hp, Option.map_some, hdecoded id p hp, eq_comm, Option.map_eq_some_iff] at hr
      obtain ⟨r, hr, hd⟩ := hr
      rw [hr, Except.ok.inj hd]
      rfl
  unfold Heap.scan
  rw [scanBy_eq E (readable_newest hs.store) hc, decodeRows_ok (f := decoded), ← hmap]
  · rfl
  · intro e he
    exact hdecoded e.1 e.2 ((hget e.1).symm.trans ((OrdMap.mem_entries _ _ _).mp he))

theorem keeps (hr : Reads E h name records) (hk : Keeps h h') : Reads E h' name records := by
  obtain ⟨f, hf, hr⟩ := hr
  refine ⟨f, by rw [hk.format, hf], fun id => ?_⟩
  rw [hk.stored, hr]

theorem absent_iff (hr : Reads E h name records) :
    h.stored (name, id) = none ↔ records.get id = none := by
  obtain ⟨f, -, hr⟩ := hr
  rw [← Option.map_eq_none_iff, hr id, Option.map_eq_none_iff]

theorem put {payload : Bytes} {rec : Record} (hr : Reads E h name records)
    (hw : Rewrites (name, id) (some payload) h h')
    (hd : ∀ f, h.formatOf name = some f → decodePayload E f.2.1 payload = .ok rec) :
    Reads E h' name (records.insert id rec) := by
  obtain ⟨f, hf, hr⟩ := hr
  refine ⟨f, by rw [hw.format, hf], fun x => ?_⟩
  rw [hw.stored, OrdMap.get_insert]
  by_cases hx : x = id
  · rw [if_pos hx, hx, Function.update_self, Option.map_some, hd f hf]
    rfl
  · have hne : (name, x) ≠ (name, id) := fun he => hx (Prod.ext_iff.mp he).2
    rw [if_neg hx, Function.update_of_ne hne, hr]

theorem remove (hr : Reads E h name records) (hw : Rewrites (name, id) none h h') :
    Reads E h' name (records.erase id) := by
  obtain ⟨f, hf, hr⟩ := hr
  refine ⟨f, by rw [hw.format, hf], fun x => ?_⟩
  rw [hw.stored, OrdMap.get_erase]
  by_cases hx : x = id
  · rw [if_pos hx, hx, Function.update_self]
    rfl
  · have hne : (name, x) ≠ (name, id) := fun he => hx (Prod.ext_iff.mp he).2
    rw [if_neg hx, Function.update_of_ne hne, hr]

/-- A write to another collection changes nothing here. -/
theorem other {k : Key} {p : Option Bytes} (hr : Reads E h name records) (hw : Rewrites k p h h')
    (hk : k.1 ≠ name) : Reads E h' name records := by
  obtain ⟨f, hf, hr⟩ := hr
  refine ⟨f, by rw [hw.format, hf], fun x => ?_⟩
  have hne : (name, x) ≠ k := fun he => hk (by rw [← he])
  rw [hw.stored, Function.update_of_ne hne, hr]

end Reads

end Heap

end Adabt.Storage
