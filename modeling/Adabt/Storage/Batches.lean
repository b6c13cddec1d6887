import Adabt.Storage.Readback

/-! # Batches

A batch is checked as a whole, logged as a whole and then put row by row. A row
too large for a page is found out only when its turn comes, so a batch fails
whole unless its first row fits and a later one does not. -/

set_option autoImplicit false

namespace Adabt.Storage
open Adabt.Core Adabt.Library

namespace Heap

variable (E : Env)

/-- The payload of an encoded row. -/
def payloadOf (f : CollectionId × RecordCodec × Bool) (row : RecordId × Bytes) : Bytes :=
  buildPayload E f.1 row.1 row.2 f.2.2

def putStored (name : String) (f : CollectionId × RecordCodec × Bool) (stored : Key → Option Bytes)
    (row : RecordId × Bytes) : Key → Option Bytes :=
  Function.update stored (name, row.1) (some (payloadOf E f row))

/-- The heap went through writes that stored the payload of every row. -/
structure Fills (name : String) (f : CollectionId × RecordCodec × Bool)
    (rows : List (RecordId × Bytes)) (h h' : Heap) : Prop where
  evolves : Evolves h h'
  format : h'.formatOf = h.formatOf
  stored : h'.stored = rows.foldl (putStored E name f) h.stored

variable {E}

theorem Fills.nil {name : String} {f : CollectionId × RecordCodec × Bool} {h : Heap} (hs : h.Sound) :
    Fills E name f [] h h := ⟨.refl hs, rfl, rfl⟩

theorem Rewrites.fills {name : String} {f : CollectionId × RecordCodec × Bool}
    {row : RecordId × Bytes} {rows : List (RecordId × Bytes)} {h h1 h2 : Heap}
    (a : Rewrites (name, row.1) (some (payloadOf E f row)) h h1) (b : Fills E name f rows h1 h2) :
    Fills E name f (row :: rows) h h2 := by
  refine ⟨a.evolves.trans b.evolves, b.format.trans a.format, ?_⟩
  rw [b.stored, a.stored]
  rfl

theorem Keeps.fills {name : String} {f : CollectionId × RecordCodec × Bool}
    {rows : List (RecordId × Bytes)} {h h1 h2 : Heap} (a : Keeps h h1)
    (b : Fills E name f rows h1 h2) : Fills E name f rows h h2 := by
  refine ⟨a.evolves.trans b.evolves, b.format.trans a.format, ?_⟩
  rw [b.stored, a.stored]

/-- Rows that decode are read with the records that were there. -/
theorem Reads.fills {name : String} {f : CollectionId × RecordCodec × Bool}
    {rows : List (RecordId × Bytes)} {es : List (RecordId × Record)} {h h' : Heap}
    {records : OrdMap RecordId Record} (hr : Reads E h name records) (hf : h.formatOf name = some f)
    (hw : Fills E name f rows h h')
    (hes : List.Forall₂ (fun p e => p.1 = e.1 ∧ f.2.1.decode p.2 = .ok e.2) rows es) :
    Reads E h' name (records.insertAll es) := by
  have hread : ∀ (stored : Key → Option Bytes) (records : OrdMap RecordId Record),
      (∀ id, (stored (name, id)).map (decodePayload E f.2.1) = (records.get id).map Except.ok) →
      ∀ id, (rows.foldl (putStored E name f) stored (name, id)).map (decodePayload E f.2.1) =
        ((records.insertAll es).get id).map Except.ok := by
    clear hw hr
    induction hes with
    | nil => exact fun _ _ h => h
    | @cons p e rows es hpe _ ih =>
      intro stored records h
      rw [List.foldl_cons, OrdMap.insertAll_cons]
      apply ih
      intro id
      rw [putStored, OrdMap.get_insert, ← hpe.1]
      by_cases hid : id = p.1
      · rw [if_pos hid, hid, Function.update_self, Option.map_some, payloadOf, decode_buildPayload,
          hpe.2]
        rfl
      · have hne : (name, id) ≠ (name, p.1) := fun he => hid (Prod.ext_iff.mp he).2
        rw [if_neg hid, Function.update_of_ne hne, h]
  obtain ⟨f', hf', hr⟩ := hr
  obtain rfl : f = f' := Option.some.inj (hf.symm.trans hf')
  refine ⟨f, by rw [hw.format, hf], ?_⟩
  rw [hw.stored]
  exact hread _ _ hr

theorem Fills.other {name : String} {f : CollectionId × RecordCodec × Bool}
    {rows : List (RecordId × Bytes)} {h h' : Heap} (hw : Fills E name f rows h h') {k : Key}
    (hk : k.1 ≠ name) : h'.stored k = h.stored k := by
  have hsame : ∀ stored : Key → Option Bytes, rows.foldl (putStored E name f) stored k = stored k := by
    clear hw
    induction rows with
    | nil => exact fun _ => rfl
    | cons p rows ih =>
      intro stored
      have hkey : k ≠ (name, p.1) := fun he => hk (congrArg Prod.fst he)
      rw [List.foldl_cons, ih, putStored, Function.update_of_ne hkey]
  rw [hw.stored, hsame]

theorem Reads.fills_other {name other : String} {f : CollectionId × RecordCodec × Bool}
    {rows : List (RecordId × Bytes)} {h h' : Heap} {records : OrdMap RecordId Record}
    (hr : Reads E h other records) (hw : Fills E name f rows h h') (hne : other ≠ name) :
    Reads E h' other records := by
  obtain ⟨f', hf', hr⟩ := hr
  refine ⟨f', by rw [hw.format, hf'], fun id => ?_⟩
  rw [hw.other (k := (other, id)) hne]
  exact hr id

variable (E)

/-! ## Checking -/

/-- What a batch that passed its checks is made of. -/
structure Prepared (h : Heap) (name : String) (f : CollectionId × RecordCodec × Bool)
    (records : List (RecordId × Record)) (rows : List (RecordId × Bytes)) : Prop where
  encoded : List.Forall₂ (fun r p => r.1 = p.1 ∧
    f.2.1.schema.validateRecord (normalizeForStorage r.2) = .ok () ∧
    f.2.1.encode (normalizeForStorage r.2) = .ok p.2) records rows
  nodup : (records.map (·.1)).Nodup
  absent : ∀ r ∈ records, h.stored (name, r.1) = none

theorem prepareBatch_spec {h : Heap} (hs : h.Sound) {name : String} {c : Collection}
    (hc : h.collections.get name = some c) {records : List (RecordId × Record)}
    {seen : List RecordId} {rows : List (RecordId × Bytes)}
    (hp : prepareBatch h name seen records = .ok rows) :
    Prepared h name (c.id, c.codec, h.compress) records rows ∧ ∀ r ∈ records, r.1 ∉ seen := by
  induction records generalizing seen rows with
  | nil =>
    cases hp
    exact ⟨⟨.nil, List.nodup_nil, nofun⟩, nofun⟩
  | cons r records ih =>
    rw [prepareBatch] at hp
    simp only [hc, ok_bind] at hp
    obtain ⟨_, hv, hp⟩ := bind_eq_ok.mp hp
    obtain ⟨_, hdead, hp⟩ := bind_eq_ok.mp hp
    obtain ⟨_, hseen, hp⟩ := bind_eq_ok.mp hp
    obtain ⟨bytes, henc, hp⟩ := bind_eq_ok.mp hp
    obtain ⟨rest, hrest, hp⟩ := bind_eq_ok.mp hp
    cases hp
    obtain ⟨hprep, hout⟩ := ih hrest
    rw [ensure_eq_ok] at hdead hseen
    have habsent : h.stored (name, r.1) = none := by
      have hlive := (isLive_iff hs hc r.1).not
      rw [hdead] at hlive
      exact not_not.mp (hlive.mp Bool.false_ne_true)
    refine ⟨⟨.cons ⟨rfl, validate_eq_ok hv, henc⟩ hprep.encoded, ?_, ?_⟩, ?_⟩
    · rw [List.map_cons, List.nodup_cons]
      refine ⟨fun hmem => ?_, hprep.nodup⟩
      obtain ⟨d, hd, heq⟩ := List.mem_map.mp hmem
      exact hout d hd (heq ▸ List.mem_cons_self)
    · intro d hd
      rcases List.mem_cons.mp hd with rfl | hd
      · exact habsent
      · exact hprep.absent d hd
    · intro d hd
      rcases List.mem_cons.mp hd with rfl | hd
      · exact hseen
      · exact fun hmem => hout d hd (List.mem_cons_of_mem _ hmem)

/-! ## Logging and putting -/

theorem logs_spec (name : String) (rows : List (RecordId × Bytes)) (h : Heap) :
    Post (forEach (fun p => log E (.insert name p.1 p.2)) rows) h (fun _ => WalOnly h)
      fun _ => WalOnly h := by
  have hstep := post_forEach (f := fun p : RecordId × Bytes => log E (.insert name p.1 p.2))
    (I := fun _ => WalOnly h) (R := fun _ => WalOnly h) fun p ps h1 hw => by
      obtain ⟨wal, rfl⟩ := hw
      exact (log_spec E _ _).mono (fun _ _ hw => hw) fun _ _ hw => hw
  exact hstep rows h ⟨h.wal, rfl⟩

def Fits (f : CollectionId × RecordCodec × Bool) (row : RecordId × Bytes) : Prop :=
  (payloadOf E f row).length ≤ maxPayload

/-- The rows before one that exceeds a page were put, and no other. -/
def Cut (name : String) (f : CollectionId × RecordCodec × Bool) (rows : List (RecordId × Bytes))
    (h h' : Heap) : Prop :=
  ∃ done p rest, rows = done ++ p :: rest ∧ (∀ q ∈ done, Fits E f q) ∧ ¬ Fits E f p ∧
    Fills E name f done h h'

theorem puts_spec {f : CollectionId × RecordCodec × Bool} {name : String}
    (rows : List (RecordId × Bytes)) {h : Heap} (hs : h.Sound) (hf : h.formatOf name = some f) :
    Post (forEach (fun p => applyPut E name p.1 p.2) rows) h (fun _ => Fills E name f rows h)
      fun _ => Cut E name f rows h := by
  induction rows generalizing h with
  | nil => exact Fills.nil hs
  | cons p rows ih =>
    obtain ⟨c, hc, rfl⟩ := Option.map_eq_some_iff.mp hf
    rw [forEach, post_bind]
    by_cases hfit : Fits E (c.id, c.codec, h.compress) p
    · refine (applyPutBy_spec E places_place hs hc p.1 p.2).mono (fun _ h1 hr => ?_)
        fun _ _ hr => absurd hfit (Nat.not_le.mpr hr.2.2)
      have hf1 : h1.formatOf name = some (c.id, c.codec, h.compress) := by rw [hr.format, hf]
      refine (ih hr.evolves.sound hf1).mono (fun _ _ hfill => hr.fills hfill) fun _ _ hcut => ?_
      obtain ⟨done, q, rest, rfl, hdone, hq, hfill⟩ := hcut
      exact ⟨p :: done, q, rest, rfl, List.forall_mem_cons.mpr ⟨hfit, hdone⟩, hq, hr.fills hfill⟩
    · refine (applyPutBy_refuses E place hc (Nat.not_le.mp hfit)).mono (fun _ _ hF => hF.elim)
        fun _ h1 heq => ?_
      rw [heq]
      exact ⟨[], p, rows, rfl, List.forall_mem_nil _, hfit, Fills.nil hs⟩

/-- A batch is stored whole, or not at all, or up to a row that exceeds a page. -/
theorem insertBatch_spec {h : Heap} (hs : h.Sound) (name : String)
    (records : List (RecordId × Record)) :
    Post (insertBatch E name records) h
      (fun _ h' => (∀ f, h.formatOf name = some f → ∃ rows, Prepared h name f records rows ∧
        Fills E name f rows h h') ∧ (h.formatOf name = none → Keeps h h'))
      fun _ h' => Keeps h h' ∨ ∃ f rows, h.formatOf name = some f ∧
        prepareBatch h name [] records = .ok rows ∧ Prepared h name f records rows ∧
        Cut E name f rows h h' := by
  unfold insertBatch
  simp only [post_bind, post_get]
  refine post_attempt (fun rows hprep => ?_) fun _ _ => .inl (Keeps.refl hs)
  refine (logs_spec E name rows h).mono (fun _ h1 hwal => ?_) fun _ _ hwal => .inl (hwal.keeps hs)
  have hk := hwal.keeps hs
  cases hf : h.formatOf name with
  | none =>
    -- A batch over no collection passes its checks only when it is empty.
    have hc : h.collections.get name = none := Option.map_eq_none_iff.mp hf
    cases records with
    | nil =>
      cases hprep
      exact ⟨by simp, fun _ => hk⟩
    | cons r records =>
      rw [prepareBatch] at hprep
      simp only [hc, error_bind] at hprep
      cases hprep
  | some f =>
    obtain ⟨c, hc, rfl⟩ := Option.map_eq_some_iff.mp hf
    have hp := (prepareBatch_spec hs hc hprep).1
    have hf1 : h1.formatOf name = some (c.id, c.codec, h.compress) := by rw [hk.format, hf]
    refine (puts_spec E rows hk.evolves.sound hf1).mono (fun _ _ hfill => ?_) fun _ _ hcut => .inr ?_
    · refine ⟨fun f hf' => ?_, by simp⟩
      cases hf'
      exact ⟨rows, hp, hk.fills hfill⟩
    · obtain ⟨done, p, rest, hsplit, hdone, hq, hfill⟩ := hcut
      exact ⟨_, rows, rfl, hprep, hp, done, p, rest, hsplit, hdone, hq, hk.fills hfill⟩

/-- No batch that passes its checks has a row too large behind a row that fits. -/
def WholeBatch (h : Heap) (name : String) (records : List (RecordId × Record)) : Prop :=
  ∀ f, h.formatOf name = some f → ∀ p rows, prepareBatch h name [] records = .ok (p :: rows) →
    Fits E f p → ∀ q ∈ rows, Fits E f q

/-- Such a batch is never cut after a row was put. -/
theorem WholeBatch.keeps {E : Env} {h h' : Heap} {name : String} {records : List (RecordId × Record)}
    {f : CollectionId × RecordCodec × Bool} {rows : List (RecordId × Bytes)}
    (hw : WholeBatch E h name records) (hf : h.formatOf name = some f)
    (hp : prepareBatch h name [] records = .ok rows) (hc : Cut E name f rows h h') : Keeps h h' := by
  obtain ⟨done, p, rest, rfl, hdone, hq, hfill⟩ := hc
  cases done with
  | nil => exact ⟨hfill.evolves, hfill.format, hfill.stored⟩
  | cons q done =>
    have hall := hw f hf q (done ++ p :: rest) hp (hdone q List.mem_cons_self)
    exact absurd (hall p (by simp)) hq

end Heap

end Adabt.Storage
