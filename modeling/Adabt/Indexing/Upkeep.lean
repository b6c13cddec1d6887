import Adabt.Indexing.Serving

/-! # Keeping an index in step

What filing an id under a key and taking it out again leave of a map of keys.
An index that is in step with some records is in step with one record more after
it is told of it, and with one less after it is told of that, as long as the
order and the hash of values are sound among the keys. -/

set_option autoImplicit false

namespace Adabt.Indexing
open Adabt.Core Adabt.Ir Adabt.Library

abbrev KeyMap := List (Value × List RecordId)

variable {kind : IndexKind} {key : Value} {id : RecordId} {es : KeyMap}

theorem sameKey_refl (kind : IndexKind) (key : Value) : sameKey kind key key = true := by
  rw [sameKey, decide_eq_true_eq]
  exact ⟨Value.cmp_self key, .inr rfl⟩

theorem mem_insertId {x : RecordId} {ids : List RecordId} :
    x ∈ insertId id ids ↔ x = id ∨ x ∈ ids := by
  rw [insertId]
  split_ifs with h
  · constructor
    · exact .inr
    · rintro (rfl | hx)
      · exact h
      · exact hx
  · exact List.mem_orderedInsert _

theorem insertId_ascending {ids : List RecordId} (h : ids.Pairwise (· < ·)) :
    (insertId id ids).Pairwise (· < ·) := by
  rw [insertId]
  split_ifs with hid
  · exact h
  · have hle : (ids.orderedInsert (· ≤ ·) id).Pairwise (· ≤ ·) :=
      (h.imp fun hab => hab.le).orderedInsert id ids
    have hnodup : (ids.orderedInsert (· ≤ ·) id).Nodup := by
      rw [(List.perm_orderedInsert _ id ids).nodup_iff, List.nodup_cons]
      exact ⟨hid, h.imp fun hab => hab.ne⟩
    exact (hle.and hnodup).imp fun hab => hab.1.lt_of_ne hab.2

/-! ## Filing an id -/

theorem mem_insertKey {e' : Value × List RecordId} (h : e' ∈ insertKey kind key id es) :
    e' ∈ es ∨ e' = (key, [id]) ∨
      ∃ e ∈ es, sameKey kind e.1 key = true ∧ e' = (e.1, insertId id e.2) := by
  induction es with
  | nil => exact .inr (.inl (List.mem_singleton.mp h))
  | cons e rest ih =>
    rw [insertKey] at h
    split_ifs at h with hsame hlt
    · rcases List.mem_cons.mp h with rfl | h
      · exact .inr (.inr ⟨e, List.mem_cons_self, hsame, rfl⟩)
      · exact .inl (List.mem_cons_of_mem _ h)
    · rcases List.mem_cons.mp h with rfl | h
      · exact .inr (.inl rfl)
      · exact .inl h
    · rcases List.mem_cons.mp h with rfl | h
      · exact .inl List.mem_cons_self
      · rcases ih h with h | h | ⟨d, hd, h⟩
        · exact .inl (List.mem_cons_of_mem _ h)
        · exact .inr (.inl h)
        · exact .inr (.inr ⟨d, List.mem_cons_of_mem _ hd, h⟩)

theorem insertKey_keeps {e : Value × List RecordId} (he : e ∈ es) :
    ∃ e' ∈ insertKey kind key id es, e'.1 = e.1 ∧ ∀ x ∈ e.2, x ∈ e'.2 := by
  induction es with
  | nil => cases he
  | cons d rest ih =>
    rw [insertKey]
    split_ifs
    · rcases List.mem_cons.mp he with rfl | he
      · exact ⟨_, List.mem_cons_self, rfl, fun x hx => mem_insertId.mpr (.inr hx)⟩
      · exact ⟨e, List.mem_cons_of_mem _ he, rfl, fun _ hx => hx⟩
    · exact ⟨e, List.mem_cons_of_mem _ he, rfl, fun _ hx => hx⟩
    · rcases List.mem_cons.mp he with rfl | he
      · exact ⟨e, List.mem_cons_self, rfl, fun _ hx => hx⟩
      · obtain ⟨e', he', h⟩ := ih he
        exact ⟨e', List.mem_cons_of_mem _ he', h⟩

theorem insertKey_files (kind : IndexKind) (key : Value) (id : RecordId) (es : KeyMap) :
    ∃ e' ∈ insertKey kind key id es, sameKey kind e'.1 key = true ∧ id ∈ e'.2 := by
  have hnew : sameKey kind (key, [id]).1 key = true ∧ id ∈ (key, [id]).2 :=
    ⟨sameKey_refl kind key, List.mem_singleton_self id⟩
  induction es with
  | nil => exact ⟨_, List.mem_singleton_self _, hnew⟩
  | cons e rest ih =>
    rw [insertKey]
    split_ifs with hsame
    · exact ⟨_, List.mem_cons_self, hsame, mem_insertId.mpr (.inl rfl)⟩
    · exact ⟨_, List.mem_cons_self, hnew⟩
    · obtain ⟨e', he', h⟩ := ih
      exact ⟨e', List.mem_cons_of_mem _ he', h⟩

theorem insertKey_apart {keys : List Value} (ho : KeysInOrder kind keys)
    (hes : ∀ e ∈ es, e.1 ∈ keys) (hkey : key ∈ keys)
    (h : es.Pairwise fun a b => Index.Apart kind a.1 b.1) :
    (insertKey kind key id es).Pairwise fun a b => Index.Apart kind a.1 b.1 := by
  induction es with
  | nil => exact List.pairwise_singleton _ _
  | cons e rest ih =>
    obtain ⟨he, hrest⟩ := List.pairwise_cons.mp h
    rw [insertKey]
    split_ifs with hsame hlt
    · exact List.pairwise_cons.mpr ⟨he, hrest⟩
    · refine List.pairwise_cons.mpr ⟨fun d hd => ?_, h⟩
      rw [Index.Apart, if_pos hlt.1]
      rcases List.mem_cons.mp hd with rfl | hd
      · exact hlt.2
      · have hed := he d hd
        rw [Index.Apart, if_pos hlt.1] at hed
        rw [ho.linked key hkey e.1 (hes e List.mem_cons_self) d.1
          (hes d (List.mem_cons_of_mem _ hd)) (by simp [hlt.2]) (by simp [hed]), hlt.2]
        rfl
    · refine List.pairwise_cons.mpr ⟨fun d hd => ?_,
        ih (fun d hd => hes d (List.mem_cons_of_mem _ hd)) hrest⟩
      have hnew : Index.Apart kind e.1 key := by
        rw [Index.Apart]
        split_ifs with hb
        · -- The key is neither equal to that of the entry nor before it.
          cases hc : e.1.cmp key with
          | lt => rfl
          | eq => simp [sameKey, hc, hb] at hsame
          | gt =>
            rw [Value.cmp_swap, hc] at hlt
            exact absurd ⟨hb, rfl⟩ hlt
        · simpa using hsame
      rcases mem_insertKey hd with hd | rfl | ⟨c, hc, -, rfl⟩
      · exact he d hd
      · exact hnew
      · exact he c hc

/-! ## Taking an id out -/

theorem removeKey_cons (kind : IndexKind) (key : Value) (id : RecordId) (e : Value × List RecordId)
    (rest : KeyMap) : removeKey kind key id (e :: rest) =
      if sameKey kind e.1 key then
        if (e.2.erase id).isEmpty then rest else (e.1, e.2.erase id) :: rest
      else e :: removeKey kind key id rest := rfl

theorem mem_removeKey {e' : Value × List RecordId} (h : e' ∈ removeKey kind key id es) :
    e' ∈ es ∨ ∃ e ∈ es, sameKey kind e.1 key = true ∧ e.2.erase id ≠ [] ∧
      e' = (e.1, e.2.erase id) := by
  induction es with
  | nil => cases h
  | cons e rest ih =>
    rw [removeKey_cons] at h
    split_ifs at h with hsame hempty
    · exact .inl (List.mem_cons_of_mem _ h)
    · rcases List.mem_cons.mp h with rfl | h
      · exact .inr ⟨e, List.mem_cons_self, hsame, fun hn => hempty (List.isEmpty_iff.mpr hn), rfl⟩
      · exact .inl (List.mem_cons_of_mem _ h)
    · rcases List.mem_cons.mp h with rfl | h
      · exact .inl List.mem_cons_self
      · rcases ih h with h | ⟨d, hd, h⟩
        · exact .inl (List.mem_cons_of_mem _ h)
        · exact .inr ⟨d, List.mem_cons_of_mem _ hd, h⟩

theorem removeKey_keys (kind : IndexKind) (key : Value) (id : RecordId) (es : KeyMap) :
    ((removeKey kind key id es).map (·.1)).Sublist (es.map (·.1)) := by
  induction es with
  | nil => exact List.Sublist.refl _
  | cons e rest ih =>
    rw [removeKey_cons]
    split_ifs
    · exact List.sublist_cons_self _ _
    · exact List.Sublist.refl _
    · exact ih.cons_cons e.1

theorem removeKey_keeps {e : Value × List RecordId} {x : RecordId} (he : e ∈ es) (hx : x ∈ e.2)
    (hne : x ≠ id ∨ sameKey kind e.1 key = false) :
    ∃ e' ∈ removeKey kind key id es, e'.1 = e.1 ∧ x ∈ e'.2 := by
  induction es with
  | nil => cases he
  | cons d rest ih =>
    rw [removeKey_cons]
    split_ifs with hsame hempty
    · rcases List.mem_cons.mp he with rfl | he
      · have hxid : x ≠ id := hne.resolve_right (by simp [hsame])
        have hmem : x ∈ e.2.erase id := (List.mem_erase_of_ne hxid).mpr hx
        rw [List.isEmpty_iff.mp hempty] at hmem
        cases hmem
      · exact ⟨e, he, rfl, hx⟩
    · rcases List.mem_cons.mp he with rfl | he
      · have hxid : x ≠ id := hne.resolve_right (by simp [hsame])
        exact ⟨_, List.mem_cons_self, rfl, (List.mem_erase_of_ne hxid).mpr hx⟩
      · exact ⟨e, List.mem_cons_of_mem _ he, rfl, hx⟩
    · rcases List.mem_cons.mp he with rfl | he
      · exact ⟨e, List.mem_cons_self, rfl, hx⟩
      · obtain ⟨e', he', h⟩ := ih he
        exact ⟨e', List.mem_cons_of_mem _ he', h⟩

theorem removeKey_gone {keys : List Value} (ho : KeysInOrder kind keys)
    (hes : ∀ e ∈ es, e.1 ∈ keys) (hkey : key ∈ keys)
    (h : es.Pairwise fun a b => Index.Apart kind a.1 b.1)
    (hids : ∀ e ∈ es, e.2.Pairwise (· < ·)) {e' : Value × List RecordId}
    (he' : e' ∈ removeKey kind key id es) (hsame' : sameKey kind e'.1 key = true) : id ∉ e'.2 := by
  induction es with
  | nil => cases he'
  | cons e rest ih =>
    obtain ⟨he, hrest⟩ := List.pairwise_cons.mp h
    have hother : ∀ d ∈ rest, sameKey kind e.1 key = true → sameKey kind d.1 key = true → False := by
      intro d hd hek hdk
      have hek' := hes e List.mem_cons_self
      have hdk' := hes d (List.mem_cons_of_mem _ hd)
      exact ho.not_apart hek' hdk' (ho.eq_trans hek' hkey hdk' (sameKey_cmp hek)
        (cmp_eq_symm (sameKey_cmp hdk))) (he d hd)
    rw [removeKey_cons] at he'
    split_ifs at he' with hsame hempty
    · exact (hother e' he' hsame hsame').elim
    · rcases List.mem_cons.mp he' with rfl | he'
      · have hnodup : e.2.Nodup := (hids e List.mem_cons_self).imp fun hab => hab.ne
        exact hnodup.not_mem_erase
      · exact (hother e' he' hsame hsame').elim
    · rcases List.mem_cons.mp he' with rfl | he'
      · exact absurd hsame' hsame
      · exact ih (fun d hd => hes d (List.mem_cons_of_mem _ hd)) hrest
          (fun d hd => hids d (List.mem_cons_of_mem _ hd)) he'

/-! ## What is filed -/

/-- Every id that wants a key is filed under it and nothing else is filed. -/
structure Filed (kind : IndexKind) (es : KeyMap) (want : RecordId → Option Value) : Prop where
  complete : ∀ id, ∀ k ∈ want id, ∃ e ∈ es, sameKey kind e.1 k = true ∧ id ∈ e.2
  sound : ∀ e ∈ es, ∀ id ∈ e.2, ∃ k ∈ want id, sameKey kind e.1 k = true
  ids : ∀ e ∈ es, e.2.Pairwise (· < ·)
  filled : ∀ e ∈ es, e.2 ≠ []
  keys : es.Pairwise fun a b => Index.Apart kind a.1 b.1

namespace Filed

variable {want : RecordId → Option Value} {keys : List Value}

theorem insert (h : Filed kind es want) (hnone : want id = none) (ho : KeysInOrder kind keys)
    (hes : ∀ e ∈ es, e.1 ∈ keys) (hkey : key ∈ keys) :
    Filed kind (insertKey kind key id es) (Function.update want id (some key)) where
  complete := by
    intro x k hk
    by_cases hx : x = id
    · subst hx
      rw [Function.update_self] at hk
      cases hk
      exact insertKey_files kind key x es
    · rw [Function.update_of_ne hx] at hk
      obtain ⟨e, he, hsame, hxe⟩ := h.complete x k hk
      obtain ⟨e', he', heq, hkeep⟩ := @insertKey_keeps kind key id _ _ he
      exact ⟨e', he', heq ▸ hsame, hkeep x hxe⟩
  sound := by
    have hold : ∀ e ∈ es, ∀ x ∈ e.2, ∃ k ∈ Function.update want id (some key) x,
        sameKey kind e.1 k = true := by
      intro e he x hx
      obtain ⟨k, hk, hsame⟩ := h.sound e he x hx
      have hne : x ≠ id := by
        rintro rfl
        rw [hnone] at hk
        cases hk
      exact ⟨k, by rwa [Function.update_of_ne hne], hsame⟩
    have hself : ∃ k ∈ Function.update want id (some key) id, k = key :=
      ⟨key, by rw [Function.update_self]; rfl, rfl⟩
    obtain ⟨k, hk, rfl⟩ := hself
    intro e' he' x hx
    rcases mem_insertKey he' with he | rfl | ⟨e, he, hsame, rfl⟩
    · exact hold e' he x hx
    · obtain rfl := List.mem_singleton.mp hx
      exact ⟨k, hk, sameKey_refl kind k⟩
    · rcases mem_insertId.mp hx with rfl | hx
      · exact ⟨k, hk, hsame⟩
      · exact hold e he x hx
  ids := by
    intro e' he'
    rcases mem_insertKey he' with he | rfl | ⟨e, he, -, rfl⟩
    · exact h.ids e' he
    · exact List.pairwise_singleton _ _
    · exact insertId_ascending (h.ids e he)
  filled := by
    intro e' he'
    rcases mem_insertKey he' with he | rfl | ⟨e, he, -, rfl⟩
    · exact h.filled e' he
    · exact List.cons_ne_nil _ _
    · exact List.ne_nil_of_mem (mem_insertId.mpr (.inl rfl))
  keys := insertKey_apart ho hes hkey h.keys

theorem remove_keys (h : Filed kind es want) (key : Value) (id : RecordId) :
    (∀ e' ∈ removeKey kind key id es, e'.2.Pairwise (· < ·) ∧ e'.2 ≠ []) ∧
      (removeKey kind key id es).Pairwise fun a b => Index.Apart kind a.1 b.1 := by
  constructor
  · intro e' he'
    rcases mem_removeKey he' with he | ⟨e, he, -, hne, rfl⟩
    · exact ⟨h.ids e' he, h.filled e' he⟩
    · exact ⟨(h.ids e he).sublist List.erase_sublist, hne⟩
  · have hkeys : (es.map (·.1)).Pairwise (Index.Apart kind) := List.pairwise_map.mpr h.keys
    exact List.pairwise_map.mp (hkeys.sublist (removeKey_keys kind key id es))

theorem remove (h : Filed kind es want) (hwant : want id = some key) (ho : KeysInOrder kind keys)
    (hes : ∀ e ∈ es, e.1 ∈ keys) (hkey : key ∈ keys) :
    Filed kind (removeKey kind key id es) (Function.update want id none) where
  complete := by
    intro x k hk
    have hne : x ≠ id := by
      rintro rfl
      rw [Function.update_self] at hk
      cases hk
    rw [Function.update_of_ne hne] at hk
    obtain ⟨e, he, hsame, hx⟩ := h.complete x k hk
    obtain ⟨e', he', heq, hx'⟩ := @removeKey_keeps _ key _ _ _ _ he hx (.inl hne)
    exact ⟨e', he', heq ▸ hsame, hx'⟩
  sound := by
    intro e' he' x hx
    have hold : ∃ e ∈ es, e'.1 = e.1 ∧ x ∈ e.2 := by
      rcases mem_removeKey he' with he | ⟨e, he, -, -, rfl⟩
      · exact ⟨e', he, rfl, hx⟩
      · exact ⟨e, he, rfl, List.mem_of_mem_erase hx⟩
    obtain ⟨e, he, heq, hxe⟩ := hold
    obtain ⟨k, hk, hsame⟩ := h.sound e he x hxe
    rw [← heq] at hsame
    have hne : x ≠ id := by
      rintro rfl
      rw [hwant] at hk
      cases hk
      exact removeKey_gone ho hes hkey h.keys h.ids he' hsame hx
    exact ⟨k, by rwa [Function.update_of_ne hne], hsame⟩
  ids := fun e' he' => ((h.remove_keys key id).1 e' he').1
  filled := fun e' he' => ((h.remove_keys key id).1 e' he').2
  keys := (h.remove_keys key id).2

/-- Taking out an id that is not filed changes nothing that is. -/
theorem remove_absent (h : Filed kind es want) (hnone : want id = none) (key : Value) :
    Filed kind (removeKey kind key id es) want where
  complete := by
    intro x k hk
    have hne : x ≠ id := by
      rintro rfl
      rw [hnone] at hk
      cases hk
    obtain ⟨e, he, hsame, hx⟩ := h.complete x k hk
    obtain ⟨e', he', heq, hx'⟩ := @removeKey_keeps _ key _ _ _ _ he hx (.inl hne)
    exact ⟨e', he', heq ▸ hsame, hx'⟩
  sound := by
    intro e' he' x hx
    rcases mem_removeKey he' with he | ⟨e, he, -, -, rfl⟩
    · exact h.sound e' he x hx
    · exact h.sound e he x (List.mem_of_mem_erase hx)
  ids := fun e' he' => ((h.remove_keys key id).1 e' he').1
  filled := fun e' he' => ((h.remove_keys key id).1 e' he').2
  keys := (h.remove_keys key id).2

end Filed

end Adabt.Indexing
