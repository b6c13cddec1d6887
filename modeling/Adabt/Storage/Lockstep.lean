import Adabt.Library.Lockstep
import Adabt.Storage.Batches

/-! # Heaps that hold the same

What a call on records does is decided by what is stored and how collections
write, not by pages, versions or the log. Two heaps with the same contents take
the same writes, refuse the same ones, and hold the same afterwards. -/

set_option autoImplicit false

namespace Adabt.Storage
open Adabt.Core Adabt.Library

namespace Heap

/-- Two open heaps hold the same under the same formats. -/
structure Alike (h h' : Heap) : Prop where
  sound : h.Sound
  sound' : h'.Sound
  format : h'.formatOf = h.formatOf
  stored : h'.stored = h.stored
  mode : h.replaying = false
  mode' : h'.replaying = false

variable {E : Env} {h h' : Heap}

theorem Alike.refl (hs : h.Sound) (hm : h.replaying = false) : Alike h h := ⟨hs, hs, rfl, rfl, hm, hm⟩

theorem Alike.symm (a : Alike h h') : Alike h' h :=
  ⟨a.sound', a.sound, a.format.symm, a.stored.symm, a.mode', a.mode⟩

theorem Alike.trans {h1 h2 h3 : Heap} (a : Alike h1 h2) (b : Alike h2 h3) : Alike h1 h3 :=
  ⟨a.sound, b.sound', b.format.trans a.format, b.stored.trans a.stored, a.mode, b.mode'⟩

theorem Alike.keeps (a : Alike h h') {h1 h1' : Heap} (k : Keeps h h1) (k' : Keeps h' h1') :
    Alike h1 h1' := by
  refine ⟨k.evolves.sound, k'.evolves.sound, ?_, ?_, ?_, ?_⟩
  · rw [k.format, k'.format, a.format]
  · rw [k.stored, k'.stored, a.stored]
  · rw [k.evolves.mode, a.mode]
  · rw [k'.evolves.mode, a.mode']

theorem Alike.rewrites (a : Alike h h') {h1 h1' : Heap} {k : Key} {p : Option Bytes}
    (w : Rewrites k p h h1) (w' : Rewrites k p h' h1') : Alike h1 h1' := by
  refine ⟨w.evolves.sound, w'.evolves.sound, ?_, ?_, ?_, ?_⟩
  · rw [w.format, w'.format, a.format]
  · rw [w.stored, w'.stored, a.stored]
  · rw [w.evolves.mode, a.mode]
  · rw [w'.evolves.mode, a.mode']

/-- The collections that write alike. -/
theorem Alike.get (a : Alike h h') (name : String) :
    (h.collections.get name = none ∧ h'.collections.get name = none) ∨
      ∃ c c', h.collections.get name = some c ∧ h'.collections.get name = some c' ∧
        c'.id = c.id ∧ c'.codec = c.codec ∧ h'.compress = h.compress := by
  have hf := congrFun a.format name
  unfold formatOf at hf
  cases hc : h.collections.get name with
  | none =>
    rw [hc, Option.map_none, Option.map_eq_none_iff] at hf
    exact .inl ⟨rfl, hf⟩
  | some c =>
    rw [hc, Option.map_some, Option.map_eq_some_iff] at hf
    obtain ⟨c', hc', heq⟩ := hf
    simp only [Prod.mk.injEq] at heq
    exact .inr ⟨c, c', rfl, hc', heq⟩

/-! ## Reads -/

theorem Alike.codecs (a : Alike h h') : h'.codecOf = h.codecOf := by
  funext name
  unfold codecOf
  rcases a.get name with ⟨hc, hc'⟩ | ⟨c, c', hc, hc', -, hcodec, -⟩
  · rw [hc, hc']
  · rw [hc, hc', Option.map_some, Option.map_some, hcodec]

theorem Alike.reads (a : Alike h h') : getRecord E h' = getRecord E h ∧ Heap.scan E h' = Heap.scan E h := by
  have hcongr := fun c => answers_congr E (readable_newest a.sound.store)
    (readable_newest a.sound'.store) (congrFun a.codecs c) fun id => by
      rw [content_newest, content_newest]
      exact congrFun a.stored (c, id)
  exact ⟨funext fun c => funext fun id => (hcongr c).1 id, funext fun c => (hcongr c).2⟩

theorem Alike.isLive (a : Alike h h') {name : String} {c c' : Collection}
    (hc : h.collections.get name = some c) (hc' : h'.collections.get name = some c') (id : RecordId) :
    isLive c' id = isLive c id := by
  rw [Bool.eq_iff_iff, isLive_iff a.sound' hc', isLive_iff a.sound hc, a.stored]

/-! ## Writes -/

theorem Alike.log (a : Alike h h') (op : WalOp) :
    Paired Alike (log E op) h (Heap.log E op) h' := by
  by_cases hop : Loggable op
  · refine paired_of_returns ((log_returns E h hop).of_post (log_spec E op h))
      ((log_returns E h' hop).of_post (log_spec E op h')) fun _ _ _ _ w w' => ⟨rfl, ?_⟩
    exact a.keeps (w.keeps a.sound) (w'.keeps a.sound')
  · refine paired_of_fails (log_refuses E a.mode hop) (log_refuses E a.mode' hop) fun _ _ w w' => ?_
    exact a.keeps (w.keeps a.sound) (w'.keeps a.sound')

theorem Alike.coll {β : Type} (a : Alike h h') (name : String) {f g : Collection → HeapM β}
    (hfg : ∀ c c', h.collections.get name = some c → h'.collections.get name = some c' →
      c'.id = c.id → c'.codec = c.codec → Paired Alike (f c) h (g c') h') :
    Paired Alike (coll name >>= f) h (Heap.coll name >>= g) h' := by
  have hget : ∀ h : Heap, (MonadState.get : HeapM Heap) h = .ok h h := fun _ => rfl
  have hnone : ∀ (h : Heap) (k : Collection → HeapM β), h.collections.get name = none →
      (Heap.coll name >>= k) h = .error (.noSuchCollection name) h := by
    intro h k hc
    rw [bind_apply]
    have : Heap.coll name h = .error (.noSuchCollection name) h := by
      unfold Heap.coll
      rw [bind_apply, hget]
      dsimp only
      rw [hc]
      rfl
    rw [this]
  have hsome : ∀ (h : Heap) (k : Collection → HeapM β) c, h.collections.get name = some c →
      (Heap.coll name >>= k) h = k c h := by
    intro h k c hc
    rw [bind_apply]
    have : Heap.coll name h = .ok c h := by
      unfold Heap.coll
      rw [bind_apply, hget]
      dsimp only
      rw [hc]
      rfl
    rw [this]
  unfold Paired
  rcases a.get name with ⟨hc, hc'⟩ | ⟨c, c', hc, hc', hid, hcodec, -⟩
  · rw [hnone h f hc, hnone h' g hc']
    exact a
  · rw [hsome h f c hc, hsome h' g c' hc']
    exact hfg c c' hc hc' hid hcodec

/-- Where either heap places the version makes no difference. -/
theorem Alike.applyPutBy (a : Alike h h') {placing placing' : Bytes → HeapM RecordLocation}
    (hp : Places placing) (hp' : Places placing') (name : String) (id : RecordId) (bytes : Bytes) :
    Paired Alike (applyPutBy E placing name id bytes) h
      (Heap.applyPutBy E placing' name id bytes) h' := by
  rcases a.get name with ⟨hc, hc'⟩ | ⟨c, c', hc, hc', hid, -, hz⟩
  · have hsame : ∀ {h : Heap} (placing : Bytes → HeapM RecordLocation),
        h.collections.get name = none →
        Returns (Heap.applyPutBy E placing name id bytes) h fun _ h1 => h1 = h := by
      intro h placing hc
      unfold Heap.applyPutBy
      simp only [Returns, post_bind, post_get, hc]
      rfl
    refine paired_of_returns (hsame placing hc) (hsame placing' hc') fun _ _ _ _ he he' => ⟨rfl, ?_⟩
    rw [he, he']
    exact a
  · have hlen : buildPayload E c'.id id bytes h'.compress = buildPayload E c.id id bytes h.compress := by
      rw [hid, hz]
    by_cases hfit : (buildPayload E c.id id bytes h.compress).length ≤ maxPayload
    · have hdone : ∀ {h : Heap} {c : Collection} {placing : Bytes → HeapM RecordLocation},
          Places placing → h.Sound → h.collections.get name = some c →
          (buildPayload E c.id id bytes h.compress).length ≤ maxPayload →
          Returns (Heap.applyPutBy E placing name id bytes) h fun _ =>
            Rewrites (name, id) (some (buildPayload E c.id id bytes h.compress)) h := by
        intro h c placing hp hs hc hfit
        exact (applyPutBy_spec E hp hs hc id bytes).mono (fun _ _ w => w)
          fun _ _ he => absurd he.2.2 (Nat.not_lt.mpr hfit)
      refine paired_of_returns (hdone hp a.sound hc hfit) (hdone hp' a.sound' hc' (hlen ▸ hfit))
        fun _ _ _ _ w w' => ⟨rfl, ?_⟩
      exact a.rewrites w (hlen ▸ w')
    · have hlong := Nat.not_le.mp hfit
      refine paired_of_fails (applyPutBy_refuses E placing hc hlong)
        (applyPutBy_refuses E placing' hc' (hlen ▸ hlong)) fun _ _ he he' => ?_
      rw [he, he']
      exact a

theorem Alike.applyDelete (a : Alike h h') (name : String) (id : RecordId) :
    Paired Alike (applyDelete E name id) h (Heap.applyDelete E name id) h' := by
  refine paired_of_returns (applyDelete_spec E a.sound name id) (applyDelete_spec E a.sound' name id)
    fun _ _ _ _ hd hd' => ?_
  rw [a.stored] at hd'
  rcases hd with ⟨rfl, hn, w⟩ | ⟨rfl, hn, k⟩
  · rcases hd' with ⟨rfl, -, w'⟩ | ⟨-, hn', -⟩
    · exact ⟨rfl, a.rewrites w w'⟩
    · exact absurd hn' hn
  · rcases hd' with ⟨-, hn', -⟩ | ⟨rfl, -, k'⟩
    · exact absurd hn hn'
    · exact ⟨rfl, a.keeps k k'⟩

theorem Alike.insertBy (a : Alike h h')
    {placing placing' : String → RecordId → Bytes → Bytes → HeapM RecordLocation}
    (hp : ∀ n i b, Places (placing n i b)) (hp' : ∀ n i b, Places (placing' n i b)) (name : String)
    (id : RecordId) (rec : Record) :
    Paired Alike (insertBy E (fun n i b => Heap.applyPutBy E (placing n i b) n i b) name id rec) h
      (Heap.insertBy E (fun n i b => Heap.applyPutBy E (placing' n i b) n i b) name id rec) h' := by
  refine a.coll name fun c c' hc hc' _ hcodec => ?_
  have hprepare : prepareInsert c' id (normalizeForStorage rec) =
      prepareInsert c id (normalizeForStorage rec) := by
    unfold prepareInsert validate
    rw [hcodec, a.isLive hc hc' id]
  refine (Paired.attempt hprepare.symm a).bind fun bytes _ _ a1 => ?_
  exact (a1.log _).bind fun _ _ _ a2 => a2.applyPutBy (hp _ _ _) (hp' _ _ _) _ _ _

theorem Alike.update (a : Alike h h') (name : String) (id : RecordId) (rec : Record) :
    Paired Alike (update E name id rec) h (Heap.update E name id rec) h' := by
  refine a.coll name fun c c' hc hc' _ hcodec => ?_
  rw [show validate c' (normalizeForStorage rec) = validate c (normalizeForStorage rec) by
    unfold validate; rw [hcodec], hcodec, a.isLive hc hc' id]
  refine (Paired.attempt rfl a).bind fun _ _ _ a1 => (Paired.attempt rfl a1).bind fun _ _ _ a2 => ?_
  refine (a2.log _).bind fun _ _ _ a3 =>
    (a3.applyPutBy places_place places_place _ _ _).bind fun _ _ _ a4 => ?_
  exact .pure _ a4

theorem Alike.delete (a : Alike h h') (name : String) (id : RecordId) :
    Paired Alike (delete E name id) h (Heap.delete E name id) h' := by
  refine a.coll name fun c c' hc hc' _ _ => ?_
  rw [a.isLive hc hc' id]
  by_cases hl : Heap.isLive c id
  · rw [if_pos hl]
    exact (a.log _).bind fun _ _ _ a1 => a1.applyDelete _ _
  · rw [if_neg hl]
    exact a.applyDelete _ _

theorem Alike.prepareBatch (a : Alike h h') (name : String) (seen : List RecordId)
    (records : List (RecordId × Record)) :
    prepareBatch h' name seen records = Heap.prepareBatch h name seen records := by
  induction records generalizing seen with
  | nil => rfl
  | cons r records ih =>
    rw [Heap.prepareBatch, Heap.prepareBatch]
    simp only [ih]
    rcases a.get name with ⟨hc, hc'⟩ | ⟨c, c', hc, hc', -, hcodec, -⟩
    · rw [hc, hc']
    · rw [hc, hc']
      simp only [ok_bind, a.isLive hc hc' r.1, hcodec, validate]

theorem Alike.insertBatch (a : Alike h h') (name : String) (records : List (RecordId × Record)) :
    Paired Alike (insertBatch E name records) h (Heap.insertBatch E name records) h' := by
  refine Paired.get ?_
  refine (Paired.attempt (a.prepareBatch name [] records).symm a).bind fun prepared _ _ a1 => ?_
  refine (Paired.forEach (fun _ _ _ a => a.log _) prepared a1).bind fun _ _ _ a2 => ?_
  refine (Paired.forEach (fun _ _ _ a => a.applyPutBy places_place places_place _ _ _) prepared
    a2).bind fun _ _ _ a3 => ?_
  exact .pure _ a3

end Heap

end Adabt.Storage
