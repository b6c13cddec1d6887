import Adabt.Storage.Contents
import Adabt.Storage.Readback
import Adabt.Storage.RowDepth

/-! # The value encoding and what is stored with it

One encoding carries index keys, journals, conditions and the fields of a
record. Nothing on the way in measures how deep a value goes, so an insert
stores what a lookup then refuses. -/

set_option autoImplicit false

namespace Adabt.Storage
open Adabt.Core Adabt.Library

/-- Self-describing, with no schema needed to read it back. -/
def encodeValue (v : OrdValue) : Bytes := writeTlv v.1

/-- The value and the number of bytes it took. -/
def decodeValue (buf : Bytes) : Except Error (OrdValue × ℕ) := do
  let (v, c) ← readTlvValue 0 (.new buf)
  return (v, c.pos)

/-- Decoding gives the value and the length of its encoding, whatever follows. -/
def ReadsBack (v : OrdValue) : Prop :=
  ∀ rest, decodeValue (encodeValue v ++ rest) = .ok (v, (encodeValue v).length)

theorem decodeValue_append {v : OrdValue} (hlen : (encodeValue v).length < 2 ^ 64) (rest : Bytes) :
    decodeValue (encodeValue v ++ rest) =
      if v.1.nesting ≤ maxDepth then .ok (v, (encodeValue v).length) else .error tooDeep := by
  rw [decodeValue, encodeValue, Cursor.new]
  split
  · rename_i hd
    rw [readTlvValue_writeTlv v hd hlen, ok_bind, Nat.zero_add]
    rfl
  · rename_i hd
    rw [readTlvValue_deep v (by omega) hlen]
    rfl

theorem readsBack_of_shallow {v : OrdValue} (hlen : (encodeValue v).length < 2 ^ 64) :
    ReadsBack v ↔ v.1.nesting ≤ maxDepth := by
  constructor
  · intro h
    by_contra hd
    have herr := decodeValue_append hlen []
    rw [h [], if_neg hd] at herr
    cases herr
  · intro hd rest
    rw [decodeValue_append hlen, if_pos hd]

theorem nestedAtMost_normalize {n : ℕ} {rec : Record} :
    (normalizeForStorage rec).NestedAtMost n ↔ rec.NestedAtMost n := by
  have hmem : ∀ e : String × OrdValue, e ∈ (normalizeForStorage rec).entries ↔
      e ∈ rec.entries ∧ e.2.1.isNull = false := fun e => by
    rw [normalizeForStorage, OrdMap.filter, List.mem_filter, Bool.not_eq_true']
  constructor
  · intro h e he
    cases hv : e.2.1 with
    | null => exact Nat.zero_le _
    | _ => exact hv ▸ h e ((hmem e).mpr ⟨he, by rw [hv]; rfl⟩)
  · intro h e he
    exact h e ((hmem e).mp he).1

namespace Heap

variable (E : Env)

/-- An insert that returned had its entry taken by the log. -/
theorem insertBy_logged {put : String → RecordId → Bytes → HeapM Unit} {h : Heap}
    (hopen : h.replaying = false) (name : String) (id : RecordId) (rec : Record) :
    Post (insertBy E put name id rec) h (fun _ _ => ∀ f bytes, h.formatOf name = some f →
      f.2.1.encode (normalizeForStorage rec) = .ok bytes → Loggable (.insert name id bytes))
      fun _ _ => True := by
  unfold insertBy
  rw [post_bind]
  refine (coll_spec name h).mono (fun c h1 hc => ?_) fun _ _ _ => trivial
  obtain ⟨hc, rfl⟩ := hc
  rw [post_bind]
  refine post_attempt (fun bytes hprep => ?_) fun _ _ => trivial
  obtain ⟨_, -, hrest⟩ := bind_eq_ok.mp hprep
  obtain ⟨_, -, hb⟩ := bind_eq_ok.mp hrest
  rw [post_bind]
  by_cases hop : Loggable (.insert name id bytes)
  · have hall : ∀ f b, h1.formatOf name = some f →
        f.2.1.encode (normalizeForStorage rec) = .ok b → Loggable (.insert name id b) := by
      intro f b hf hb'
      obtain rfl := Option.some.inj (hf.symm.trans (formatOf_eq hc))
      obtain rfl := Except.ok.inj (hb.symm.trans hb')
      exact hop
    refine (log_spec E _ h1).mono (fun _ h2 _ => ?_) fun _ _ _ => trivial
    unfold Post
    split <;> first | exact hall | trivial
  · exact (log_refuses E hopen hop).mono (fun _ _ hF => hF.elim) fun _ _ _ => trivial

theorem length_of_loggable {name : String} {id : RecordId} {bytes : Bytes}
    (h : Loggable (.insert name id bytes)) : bytes.length ≤ maxEntry := by
  unfold Loggable at h
  have hlen : bytes.length ≤ (WalOp.insert name id bytes).encode.length := by
    simp only [WalOp.encode, putBytes, List.length_cons, List.length_append]
    omega
  omega

/-- What a lookup answers for a record that an insert has just taken. -/
theorem insert_answers {h : Heap} (hs : h.Sound) (hb : h.Built) (hopen : h.replaying = false)
    {name : String} {id : RecordId} {rec : Record} {h' : Heap}
    (hins : insert E name id rec h = .ok () h') :
    ∃ r, getRecord E h' name id =
      if rec.NestedAtMost maxDepth then .ok (some r) else .error tooDeep := by
  have hspec := (insertBy_spec E (fun _ _ _ => places_place) hs name id rec).of_ok hins
  obtain ⟨-, bytes, payload, ⟨cid, codec, z, hf, hv, henc, rfl⟩, hw⟩ := hspec
  have hlog := (insertBy_logged E hopen name id rec).of_ok hins _ bytes hf henc
  have hcodec : h.codecOf name = some codec := by
    obtain ⟨c, hc, hcf⟩ := Option.map_eq_some_iff.mp hf
    cases hcf
    rw [codecOf, hc, Option.map_some]
  obtain ⟨s, rfl⟩ : ∃ s, codec = .new s := ⟨_, hb name codec hcodec⟩
  have hfits : Storage.Fits s (normalizeForStorage rec) :=
      fits_of_encode (writable_of_valid hv) henc (by
    have := length_of_loggable hlog
    unfold maxEntry at this
    omega)
  obtain ⟨bytes', henc', hdec⟩ := encode_decode (writable_of_valid (s := s) hv) hfits
  obtain rfl := Except.ok.inj (henc.symm.trans henc')
  refine ⟨readAs s (normalizeForStorage rec), ?_⟩
  unfold getRecord
  rw [getBy_eq E (readable_newest hw.evolves.sound.store), hw.evolves.codecs, hcodec,
    content_newest]
  change answer E name (some (.new s)) (h'.stored (name, id)) = _
  rw [hw.stored, Function.update_self, answer, decode_buildPayload, hdec,
    if_congr nestedAtMost_normalize rfl rfl]
  split <;> rfl

end Heap

/-- The encoding reads back, and a stored record with it, exactly when nothing in it is
nested deeper than the decoder's limit. -/
theorem encoding_readsBack_iff (E : Env) :
    (∀ v : OrdValue, (encodeValue v).length < 2 ^ 64 →
      (ReadsBack v ↔ v.1.nesting ≤ maxDepth)) ∧
    ∀ h : Heap, h.Sound → h.Built → h.replaying = false → ∀ name id rec h',
      Heap.insert E name id rec h = .ok () h' →
        ((∃ r, Heap.getRecord E h' name id = .ok (some r)) ↔ rec.NestedAtMost maxDepth) := by
  refine ⟨fun v hlen => readsBack_of_shallow hlen, ?_⟩
  intro h hs hb hopen name id rec h' hins
  obtain ⟨r, hr⟩ := Heap.insert_answers E hs hb hopen hins
  rw [hr]
  constructor
  · rintro ⟨r', hr'⟩
    by_contra hd
    rw [if_neg hd] at hr'
    cases hr'
  · intro hd
    exact ⟨r, if_pos hd⟩

/-- A list inside a list, so many times. -/
def nested : ℕ → OrdValue
  | 0 => ⟨.null, trivial⟩
  | n + 1 => ordList [nested n]

def nestedRecord (n : ℕ) : Record := (∅ : Record).set "f" (nested n)

/-- A store with one collection of any records. -/
def openCollection : Heap := exec (Heap.createCollection Env.plain "c" Schema.dynamic) Heap.fresh

theorem openCollection_sound : openCollection.Sound ∧ openCollection.Built := by
  have hr : Post (Heap.createCollection Env.plain "c" Schema.dynamic) Heap.fresh
      (fun _ => Heap.Sound) fun _ => Heap.Sound :=
    (Heap.createCollection_spec Env.plain Heap.fresh_sound "c" Schema.dynamic).mono
      (fun _ _ h => h.2.sound) fun _ _ h => h.evolves.sound
  exact ⟨hr.exec, Heap.built_fresh.register "c" Schema.dynamic⟩

/-- The state after an insert that returned. -/
def afterInsert (n : ℕ) : Option Heap :=
  match Heap.insert Env.plain "c" 1 (nestedRecord n) openCollection with
  | .ok _ h' => some h'
  | .error _ _ => none

theorem insert_of_afterInsert {n : ℕ} (h : (afterInsert n).isSome) :
    ∃ h', Heap.insert Env.plain "c" 1 (nestedRecord n) openCollection = .ok () h' := by
  unfold afterInsert at h
  cases hins : Heap.insert Env.plain "c" 1 (nestedRecord n) openCollection with
  | ok u h' => exact ⟨h', rfl⟩
  | error e h' =>
    rw [hins] at h
    cases h

theorem encoding_readsBack_flat : ReadsBack (nested 64) ∧
    ∃ h', Heap.insert Env.plain "c" 1 (nestedRecord 64) openCollection = .ok () h' ∧
      ∃ r, Heap.getRecord Env.plain h' "c" 1 = .ok (some r) := by
  have h := encoding_readsBack_iff Env.plain
  obtain ⟨h', hins⟩ := insert_of_afterInsert (n := 64) (by decide +kernel)
  refine ⟨(h.1 (nested 64) (by decide +kernel)).mpr (by decide +kernel), h', hins, ?_⟩
  exact (h.2 openCollection openCollection_sound.1 openCollection_sound.2 rfl "c" 1 (nestedRecord 64)
    h' hins).mpr (by decide +kernel)

/-- One level more is encoded, inserted and acknowledged, and never read again. -/
theorem nested_unreadable : ¬ ReadsBack (nested 65) ∧
    ∃ h', Heap.insert Env.plain "c" 1 (nestedRecord 65) openCollection = .ok () h' ∧
      Heap.getRecord Env.plain h' "c" 1 = .error tooDeep := by
  constructor
  · intro h
    have herr := decodeValue_append (v := nested 65) (by decide +kernel) []
    rw [h [], if_neg (by decide +kernel)] at herr
    cases herr
  · obtain ⟨h', hins⟩ := insert_of_afterInsert (n := 65) (by decide +kernel)
    obtain ⟨r, hr⟩ := Heap.insert_answers Env.plain openCollection_sound.1 openCollection_sound.2
      rfl hins
    exact ⟨h', hins, hr.trans (if_neg (by decide +kernel))⟩

end Adabt.Storage
