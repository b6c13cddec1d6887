import Adabt.Indexing.Bitset
import Adabt.Indexing.InStep
import Adabt.Library.KeyTable

/-! # The kinds of index as one multimap

Sorted vectors under a hash map or a tree, bit sets under a hash map, and the
hash map of a composite index: whatever is filed and taken out again, each of
them is the same set of keys with ids. -/

set_option autoImplicit false

namespace Adabt.Indexing
open Adabt.Core Adabt.Library

/-! ## The structures -/

def findSlot {σ : Type} (kind : IndexKind) (key : Value) (m : List (Value × σ)) : Option σ :=
  (m.find? fun e => sameKey kind e.1 key).map (·.2)

/-- The bookkeeping that the kinds with sorted vectors share, over the map of a kind. -/
structure IndexCore (kind : IndexKind) where
  field : String
  map : KeyMap
  entries : ℕ

namespace IndexCore

variable {kind : IndexKind}

def new (field : String) : IndexCore kind := ⟨field, [], 0⟩

def lookup (c : IndexCore kind) (key : Value) : List RecordId := (findSlot kind key c.map).getD []

def insert (c : IndexCore kind) (key : Value) (id : RecordId) : IndexCore kind :=
  { c with
    map := insertKey kind key id c.map
    entries := if id ∈ c.lookup key then c.entries else c.entries + 1 }

def remove (c : IndexCore kind) (key : Value) (id : RecordId) : IndexCore kind :=
  { c with
    map := removeKey kind key id c.map
    entries := if id ∈ c.lookup key then c.entries - 1 else c.entries }

end IndexCore

/-- A bit set for each key. -/
structure BitmapIndex where
  field : String
  map : List (Value × Bitset)
  entries : ℕ

namespace BitmapIndex

def new (field : String) : BitmapIndex := ⟨field, [], 0⟩

def setBit (key : Value) (id : RecordId) : List (Value × Bitset) → List (Value × Bitset)
  | [] => [(key, Bitset.empty.set id)]
  | e :: rest =>
    if sameKey .bitmap e.1 key then (e.1, if e.2.get id then e.2 else e.2.set id) :: rest
    else e :: setBit key id rest

def clearBit (key : Value) (id : RecordId) : List (Value × Bitset) → List (Value × Bitset)
  | [] => []
  | e :: rest =>
    if sameKey .bitmap e.1 key then
      let bits := if e.2.get id then e.2.clear id else e.2
      if bits.isEmpty then rest else (e.1, bits) :: rest
    else e :: clearBit key id rest

/-- Whether the id is set under the key. -/
def filed (i : BitmapIndex) (key : Value) (id : RecordId) : Bool :=
  match findSlot .bitmap key i.map with
  | some bits => bits.get id
  | none => false

def insert (i : BitmapIndex) (key : Value) (id : RecordId) : BitmapIndex :=
  { i with
    map := setBit key id i.map
    entries := if i.filed key id then i.entries else i.entries + 1 }

def remove (i : BitmapIndex) (key : Value) (id : RecordId) : BitmapIndex :=
  { i with
    map := clearBit key id i.map
    entries := if i.filed key id then i.entries - 1 else i.entries }

def lookup (i : BitmapIndex) (key : Value) : List RecordId :=
  ((findSlot .bitmap key i.map).map Bitset.ids).getD []

end BitmapIndex

structure CompositeIndex where
  fields : List String
  name : String
  core : IndexCore .hash

def CompositeIndex.new (fields : List String) : CompositeIndex :=
  ⟨fields, compositeName fields, .new (compositeName fields)⟩

/-- An index behind its interface. -/
inductive AnyIndex where
  | hash (core : IndexCore .hash)
  | btree (core : IndexCore .btree)
  | bitmap (index : BitmapIndex)
  | composite (index : CompositeIndex)

namespace AnyIndex

def kind : AnyIndex → IndexKind
  | hash _ | composite _ => .hash
  | btree _ => .btree
  | bitmap _ => .bitmap

def insert (key : Value) (id : RecordId) : AnyIndex → AnyIndex
  | hash core => hash (core.insert key id)
  | btree core => btree (core.insert key id)
  | bitmap i => bitmap (i.insert key id)
  | composite i => composite { i with core := i.core.insert key id }

def remove (key : Value) (id : RecordId) : AnyIndex → AnyIndex
  | hash core => hash (core.remove key id)
  | btree core => btree (core.remove key id)
  | bitmap i => bitmap (i.remove key id)
  | composite i => composite { i with core := i.core.remove key id }

def lookup (key : Value) : AnyIndex → List RecordId
  | hash core => core.lookup key
  | btree core => core.lookup key
  | bitmap i => i.lookup key
  | composite i => i.core.lookup key

def snapshot : AnyIndex → List (Value × List RecordId)
  | hash core => core.map
  | btree core => core.map
  | bitmap i => i.map.map fun e => (e.1, e.2.ids)
  | composite i => i.core.map

def keyCount : AnyIndex → ℕ
  | hash core => core.map.length
  | btree core => core.map.length
  | bitmap i => i.map.length
  | composite i => i.core.map.length

def entryCount : AnyIndex → ℕ
  | hash core => core.entries
  | btree core => core.entries
  | bitmap i => i.entries
  | composite i => i.core.entries

/-- An index of any kind as it is made. -/
inductive Fresh : AnyIndex → Prop
  | hash (field : String) : Fresh (.hash (.new field))
  | btree (field : String) : Fresh (.btree (.new field))
  | bitmap (field : String) : Fresh (.bitmap (.new field))
  | composite (fields : List String) : Fresh (.composite (.new fields))

end AnyIndex

/-! ## Every kind through its lists -/

namespace BitmapIndex

def lists (m : List (Value × Bitset)) : KeyMap := m.map fun e => (e.1, e.2.ids)

theorem ids_set (b : Bitset) (id : RecordId) :
    (if b.get id then b else b.set id).ids = insertId id b.ids := by
  have hmem := b.mem_ids id
  split_ifs with h
  · rw [insertId, if_pos (hmem.mpr h)]
  · refine ascending_ext (fun x => x) (Bitset.ids_ascending _)
      (insertId_ascending b.ids_ascending) fun x => ?_
    rw [Bitset.mem_ids, Bitset.get_set, mem_insertId, Bitset.mem_ids, Bool.or_eq_true,
      decide_eq_true_eq]

theorem ids_clear (b : Bitset) (id : RecordId) :
    (if b.get id then b.clear id else b).ids = b.ids.erase id := by
  have hnodup : b.ids.Nodup := b.ids_ascending.imp fun hab => hab.ne
  split_ifs with h
  · refine ascending_ext (fun x => x) (Bitset.ids_ascending _)
      (b.ids_ascending.sublist List.erase_sublist) fun x => ?_
    rw [Bitset.mem_ids, Bitset.get_clear, hnodup.mem_erase_iff, Bitset.mem_ids, Bool.and_eq_true,
      Bool.not_eq_true', decide_eq_false_iff_not]
  · rw [List.erase_of_not_mem ((b.mem_ids id).not.mpr h)]

theorem lists_setBit (key : Value) (id : RecordId) (m : List (Value × Bitset)) :
    lists (setBit key id m) = insertKey .bitmap key id (lists m) := by
  induction m with
  | nil =>
    have hset := ids_set .empty id
    rw [Bitset.get_empty, if_neg Bool.false_ne_true, Bitset.ids_empty] at hset
    rw [setBit, lists, List.map_singleton, hset]
    rfl
  | cons e m ih =>
    have hids := ids_set e.2 id
    change lists (setBit key id (e :: m)) = insertKey .bitmap key id ((e.1, e.2.ids) :: lists m)
    rw [setBit, insertKey]
    by_cases hsame : sameKey .bitmap e.1 key = true
    · rw [if_pos hsame, if_pos hsame, lists, List.map_cons, hids]
      rfl
    · rw [if_neg hsame, if_neg hsame, if_neg (fun h => by cases h.1), lists, List.map_cons]
      exact congrArg _ ih

theorem lists_clearBit (key : Value) (id : RecordId) (m : List (Value × Bitset)) :
    lists (clearBit key id m) = removeKey .bitmap key id (lists m) := by
  induction m with
  | nil => rfl
  | cons e m ih =>
    have hids := ids_clear e.2 id
    have hempty := Bitset.isEmpty_iff (if e.2.get id then e.2.clear id else e.2)
    change lists (clearBit key id (e :: m)) = removeKey .bitmap key id ((e.1, e.2.ids) :: lists m)
    rw [clearBit, removeKey_cons]
    by_cases hsame : sameKey .bitmap e.1 key = true
    · rw [if_pos hsame, if_pos hsame, ← hids]
      by_cases hgone : (if e.2.get id then e.2.clear id else e.2).isEmpty = true
      · rw [if_pos hgone, if_pos (List.isEmpty_iff.mpr (hempty.mp hgone))]
      · rw [if_neg hgone, if_neg (fun h => hgone (hempty.mpr (List.isEmpty_iff.mp h)))]
        rfl
    · rw [if_neg hsame, if_neg hsame, lists, List.map_cons]
      exact congrArg _ ih

theorem findSlot_lists (key : Value) (m : List (Value × Bitset)) :
    findSlot .bitmap key (lists m) = (findSlot .bitmap key m).map Bitset.ids := by
  rw [findSlot, lists, List.find?_map, findSlot, Option.map_map, Option.map_map]
  rfl

theorem filed_iff (i : BitmapIndex) (key : Value) (id : RecordId) :
    i.filed key id = true ↔ id ∈ i.lookup key := by
  rw [filed, lookup]
  cases findSlot .bitmap key i.map with
  | none => simp
  | some b => exact (b.mem_ids id).symm

end BitmapIndex

namespace AnyIndex

variable (i : AnyIndex) (key : Value) (id : RecordId)

@[simp] theorem kind_insert : (i.insert key id).kind = i.kind := by cases i <;> rfl

@[simp] theorem kind_remove : (i.remove key id).kind = i.kind := by cases i <;> rfl

theorem snapshot_insert : (i.insert key id).snapshot = insertKey i.kind key id i.snapshot := by
  cases i with
  | hash core | btree core => rfl
  | bitmap i => exact BitmapIndex.lists_setBit key id i.map
  | composite i => rfl

theorem snapshot_remove : (i.remove key id).snapshot = removeKey i.kind key id i.snapshot := by
  cases i with
  | hash core | btree core => rfl
  | bitmap i => exact BitmapIndex.lists_clearBit key id i.map
  | composite i => rfl

theorem lookup_eq : i.lookup key = (findSlot i.kind key i.snapshot).getD [] := by
  cases i with
  | hash core | btree core => rfl
  | bitmap i =>
    change i.lookup key = (findSlot .bitmap key (BitmapIndex.lists i.map)).getD []
    rw [BitmapIndex.findSlot_lists]
    rfl
  | composite i => rfl

theorem keyCount_eq : i.keyCount = i.snapshot.length := by
  cases i with
  | hash core | btree core => rfl
  | bitmap i => exact (List.length_map _).symm
  | composite i => rfl

theorem entryCount_insert : (i.insert key id).entryCount =
    if id ∈ i.lookup key then i.entryCount else i.entryCount + 1 := by
  cases i with
  | hash core | btree core => rfl
  | bitmap i =>
    have hfiled := i.filed_iff key id
    exact if_congr hfiled rfl rfl
  | composite i => rfl

theorem entryCount_remove : (i.remove key id).entryCount =
    if id ∈ i.lookup key then i.entryCount - 1 else i.entryCount := by
  cases i with
  | hash core | btree core => rfl
  | bitmap i =>
    have hfiled := i.filed_iff key id
    exact if_congr hfiled rfl rfl
  | composite i => rfl

end AnyIndex

/-! ## The set of pairs -/

/-- Equality of values. -/
def equal (a b : Value) : Bool := a.cmp b = .eq

inductive KeyCall where
  | insert (key : Value) (id : RecordId)
  | remove (key : Value) (id : RecordId)

namespace KeyCall

def key : KeyCall → Value
  | insert key _ | remove key _ => key

def onIndex : KeyCall → AnyIndex → AnyIndex
  | insert key id, i => i.insert key id
  | remove key id, i => i.remove key id

def onPairs : KeyCall → List (Value × RecordId) → List (Value × RecordId)
  | insert key id, s => Pairs.insert equal key id s
  | remove key id, s => Pairs.remove equal key id s

end KeyCall

def AnyIndex.after (i : AnyIndex) (calls : List KeyCall) : AnyIndex :=
  calls.foldl (fun i call => call.onIndex i) i

def pairsAfter (calls : List KeyCall) : List (Value × RecordId) :=
  calls.foldl (fun s call => call.onPairs s) []

/-- To every question about a key of `K` the index answers as the set of pairs does. -/
structure AnyIndex.Agrees (K : Value → Prop) (i : AnyIndex) (s : List (Value × RecordId)) : Prop where
  ascending : ∀ key, (i.lookup key).Pairwise (· < ·)
  lookup : ∀ key, K key → ∀ id, id ∈ i.lookup key ↔ Pairs.Has equal s key id
  entryCount : i.entryCount = s.length
  keyCount : i.keyCount = (Pairs.keys equal s).length
  filled : ∀ e ∈ i.snapshot, e.2 ≠ []

theorem Orderly.classes {K : Value → Prop} (h : Orderly K) : KeyTable.Classes equal K where
  refl := fun a _ => decide_eq_true (Value.cmp_self a)
  symm := fun _ _ _ _ hab => decide_eq_true (cmp_eq_symm (of_decide_eq_true hab))
  trans := fun a b c ha hb hc hab hbc => by
    have hab := of_decide_eq_true hab
    have hbc := of_decide_eq_true hbc
    refine decide_eq_true ?_
    rw [h.linked a b c ha hb hc (by simp [hab]) (by simp [hbc]), hab, hbc]
    rfl

/-- In a map whose keys are apart a key has one slot at most. -/
theorem mem_findSlot {kind : IndexKind} {key : Value} {id : RecordId} {es : KeyMap}
    {keys : List Value} (ho : KeysInOrder kind keys) (hes : ∀ e ∈ es, e.1 ∈ keys)
    (hkey : key ∈ keys) (h : es.Pairwise fun a b => Index.Apart kind a.1 b.1) :
    id ∈ (findSlot kind key es).getD [] ↔
      ∃ e ∈ es, sameKey kind e.1 key = true ∧ id ∈ e.2 := by
  induction es with
  | nil => simp [findSlot]
  | cons e es ih =>
    obtain ⟨hfirst, hrest⟩ := List.pairwise_cons.mp h
    have htail := ih (fun d hd => hes d (List.mem_cons_of_mem _ hd)) hrest
    by_cases hsame : sameKey kind e.1 key = true
    · have hslot : (findSlot kind key (e :: es)).getD [] = e.2 := by simp [findSlot, hsame]
      rw [hslot]
      constructor
      · exact fun hid => ⟨e, List.mem_cons_self, hsame, hid⟩
      · rintro ⟨d, hd, hdkey, hid⟩
        rcases List.mem_cons.mp hd with rfl | hd'
        · exact hid
        · have hde := ho.eq_trans (hes e List.mem_cons_self) hkey (hes d hd) (sameKey_cmp hsame)
            (cmp_eq_symm (sameKey_cmp hdkey))
          exact absurd (hfirst d hd') (ho.not_apart (hes e List.mem_cons_self) (hes d hd) hde)
    · have hslot : findSlot kind key (e :: es) = findSlot kind key es := by
        simp [findSlot, hsame]
      rw [hslot, htail]
      simp [hsame]

/-- What holds of an index and the pairs filed in it between any two calls. -/
structure Keeps (K : Value → Prop) (i : AnyIndex) (s : List (Value × RecordId)) : Prop where
  stored : ∀ e ∈ i.snapshot, K e.1
  ids : ∀ e ∈ i.snapshot, e.2.Pairwise (· < ·)
  filled : ∀ e ∈ i.snapshot, e.2 ≠ []
  apart : i.snapshot.Pairwise fun a b => Index.Apart i.kind a.1 b.1
  pairs : ∀ p ∈ s, K p.1
  distinct : Pairs.Distinct equal s
  has : ∀ key id, K key →
    ((∃ e ∈ i.snapshot, sameKey i.kind e.1 key = true ∧ id ∈ e.2) ↔ Pairs.Has equal s key id)
  count : i.entryCount = s.length

section Runs

variable {K : Value → Prop} (hK : Orderly K) {i : AnyIndex} {s : List (Value × RecordId)}
  {key key' : Value} {id id' : RecordId}

theorem equal_of_sameKey {kind : IndexKind} {a b : Value} (h : sameKey kind a b = true) :
    equal a b = true := decide_eq_true (sameKey_cmp h)

include hK

theorem Orderly.sameKey_of_equal (kind : IndexKind) {a b : Value} (ha : K a) (hb : K b)
    (h : equal a b = true) : sameKey kind a b = true := by
  rw [sameKey, decide_eq_true_eq]
  have hab := of_decide_eq_true h
  exact ⟨hab, .inr (hK.hashed a b ha hb hab)⟩

/-- The keys of the index with one more. -/
theorem Orderly.keysInOrder (h : Keeps K i s) (hkey : K key) :
    KeysInOrder i.kind (key :: i.snapshot.map (·.1)) :=
  hK.inOrder i.kind fun k hk => by
    rcases List.mem_cons.mp hk with rfl | hk
    · exact hkey
    · obtain ⟨e, he, rfl⟩ := List.mem_map.mp hk
      exact h.stored e he

omit hK in
theorem stored_mem_keys : ∀ e ∈ i.snapshot, e.1 ∈ key :: i.snapshot.map (·.1) :=
  fun _ he => List.mem_cons_of_mem _ (List.mem_map_of_mem he)

theorem Keeps.mem_lookup (h : Keeps K i s) (hkey : K key) :
    id ∈ i.lookup key ↔ Pairs.Has equal s key id := by
  rw [i.lookup_eq, mem_findSlot (hK.keysInOrder h hkey) stored_mem_keys List.mem_cons_self h.apart,
    h.has key id hkey]

theorem Keeps.insert (h : Keeps K i s) (hkey : K key) :
    Keeps K (i.insert key id) (Pairs.insert equal key id s) where
  stored := by
    rw [i.snapshot_insert]
    intro e' he'
    rcases mem_insertKey he' with he | rfl | ⟨e, he, -, rfl⟩
    · exact h.stored e' he
    · exact hkey
    · exact h.stored e he
  ids := by
    rw [i.snapshot_insert]
    intro e' he'
    rcases mem_insertKey he' with he | rfl | ⟨e, he, -, rfl⟩
    · exact h.ids e' he
    · exact List.pairwise_singleton _ _
    · exact insertId_ascending (h.ids e he)
  filled := by
    rw [i.snapshot_insert]
    intro e' he'
    rcases mem_insertKey he' with he | rfl | ⟨e, he, -, rfl⟩
    · exact h.filled e' he
    · exact List.cons_ne_nil _ _
    · exact List.ne_nil_of_mem (mem_insertId.mpr (.inl rfl))
  apart := by
    rw [i.snapshot_insert, i.kind_insert]
    exact insertKey_apart (hK.keysInOrder h hkey) stored_mem_keys List.mem_cons_self h.apart
  pairs := Pairs.keyed_insert h.pairs hkey
  distinct := h.distinct.insert hK.classes h.pairs hkey
  has := by
    intro key' id' hkey'
    rw [i.snapshot_insert, i.kind_insert, Pairs.has_insert hK.classes h.pairs hkey hkey',
      ← h.has key' id' hkey']
    constructor
    · rintro ⟨e', he', hsame, hid⟩
      rcases mem_insertKey he' with he | rfl | ⟨e, he, hek, rfl⟩
      · exact .inr ⟨e', he, hsame, hid⟩
      · exact .inl ⟨equal_of_sameKey hsame, (List.mem_singleton.mp hid).symm⟩
      · rcases mem_insertId.mp hid with rfl | hid
        · refine .inl ⟨?_, rfl⟩
          exact hK.classes.trans key e.1 key' hkey (h.stored e he) hkey'
            (hK.classes.symm e.1 key (h.stored e he) hkey (equal_of_sameKey hek))
            (equal_of_sameKey hsame)
        · exact .inr ⟨e, he, hsame, hid⟩
    · rintro (⟨heq, rfl⟩ | ⟨e, he, hsame, hid⟩)
      · obtain ⟨e', he', hsame, hid⟩ := insertKey_files i.kind key id i.snapshot
        have hstored : K e'.1 := by
          rcases mem_insertKey he' with he | rfl | ⟨e, he, -, rfl⟩
          · exact h.stored e' he
          · exact hkey
          · exact h.stored e he
        refine ⟨e', he', hK.sameKey_of_equal _ hstored hkey' ?_, hid⟩
        exact hK.classes.trans e'.1 key key' hstored hkey hkey' (equal_of_sameKey hsame) heq
      · obtain ⟨e', he', hfst, hkeep⟩ := @insertKey_keeps i.kind key id i.snapshot e he
        exact ⟨e', he', hfst ▸ hsame, hkeep id' hid⟩
  count := by
    have hmem : id ∈ i.lookup key ↔ Pairs.Has equal s key id := h.mem_lookup hK hkey
    rw [i.entryCount_insert]
    split_ifs with hin
    · rw [Pairs.insert_of_has (hmem.mp hin), h.count]
    · rw [Pairs.insert_of_not_has (fun hhas => hin (hmem.mpr hhas)), List.length_cons, h.count]

theorem Keeps.remove (h : Keeps K i s) (hkey : K key) :
    Keeps K (i.remove key id) (Pairs.remove equal key id s) where
  stored := by
    rw [i.snapshot_remove]
    intro e' he'
    rcases mem_removeKey he' with he | ⟨e, he, -, -, rfl⟩
    · exact h.stored e' he
    · exact h.stored e he
  ids := by
    rw [i.snapshot_remove]
    intro e' he'
    rcases mem_removeKey he' with he | ⟨e, he, -, -, rfl⟩
    · exact h.ids e' he
    · exact (h.ids e he).sublist List.erase_sublist
  filled := by
    rw [i.snapshot_remove]
    intro e' he'
    rcases mem_removeKey he' with he | ⟨e, he, -, hne, rfl⟩
    · exact h.filled e' he
    · exact hne
  apart := by
    rw [i.snapshot_remove, i.kind_remove]
    have hkeys : (i.snapshot.map (·.1)).Pairwise (Index.Apart i.kind) :=
      List.pairwise_map.mpr h.apart
    exact List.pairwise_map.mp (hkeys.sublist (removeKey_keys i.kind key id i.snapshot))
  pairs := Pairs.keyed_remove h.pairs key id
  distinct := h.distinct.remove key id
  has := by
    intro key' id' hkey'
    rw [i.snapshot_remove, i.kind_remove, Pairs.has_remove hK.classes h.pairs hkey hkey',
      ← h.has key' id' hkey']
    constructor
    · rintro ⟨e', he', hsame, hid⟩
      have hold : ∃ e ∈ i.snapshot, e'.1 = e.1 ∧ id' ∈ e.2 := by
        rcases mem_removeKey he' with he | ⟨e, he, -, -, rfl⟩
        · exact ⟨e', he, rfl, hid⟩
        · exact ⟨e, he, rfl, List.mem_of_mem_erase hid⟩
      obtain ⟨e, he, hfst, hide⟩ := hold
      refine ⟨⟨e, he, hfst ▸ hsame, hide⟩, ?_⟩
      rintro ⟨heq, rfl⟩
      have hek : sameKey i.kind e'.1 key = true := by
        refine hK.sameKey_of_equal _ (hfst ▸ h.stored e he) hkey ?_
        exact hK.classes.trans e'.1 key' key (hfst ▸ h.stored e he) hkey' hkey
          (equal_of_sameKey hsame) (hK.classes.symm key key' hkey hkey' heq)
      exact removeKey_gone (hK.keysInOrder h hkey) stored_mem_keys List.mem_cons_self h.apart
        h.ids he' hek hid
    · rintro ⟨⟨e, he, hsame, hid⟩, hne⟩
      have hother : id' ≠ id ∨ sameKey i.kind e.1 key = false := by
        by_cases hids : id' = id
        · refine .inr (Bool.eq_false_iff.mpr fun hek => hne ⟨?_, hids.symm⟩)
          exact hK.classes.trans key e.1 key' hkey (h.stored e he) hkey'
            (hK.classes.symm e.1 key (h.stored e he) hkey (equal_of_sameKey hek))
            (equal_of_sameKey hsame)
        · exact .inl hids
      obtain ⟨e', he', hfst, hid'⟩ := removeKey_keeps he hid hother
      exact ⟨e', he', hfst ▸ hsame, hid'⟩
  count := by
    have hmem : id ∈ i.lookup key ↔ Pairs.Has equal s key id := h.mem_lookup hK hkey
    rw [i.entryCount_remove]
    split_ifs with hin
    · have hlen := Pairs.length_remove_of_has hK.classes h.distinct h.pairs hkey (hmem.mp hin)
      rw [h.count]
      omega
    · rw [Pairs.remove_of_not_has (fun hhas => hin (hmem.mpr hhas)), h.count]

theorem Keeps.after (h : Keeps K i s) {calls : List KeyCall} (hc : ∀ c ∈ calls, K c.key) :
    Keeps K (i.after calls) (calls.foldl (fun s call => call.onPairs s) s) := by
  induction calls generalizing i s with
  | nil => exact h
  | cons c calls ih =>
    have hkey := hc c List.mem_cons_self
    refine ih ?_ fun d hd => hc d (List.mem_cons_of_mem _ hd)
    cases c with
    | insert key id => exact h.insert hK hkey
    | remove key id => exact h.remove hK hkey

omit hK in
theorem AnyIndex.Fresh.snapshot_nil (hi : i.Fresh) : i.snapshot = [] := by cases hi <;> rfl

omit hK in
theorem AnyIndex.Fresh.keeps (hi : i.Fresh) : Keeps K i [] where
  stored := by simp [hi.snapshot_nil]
  ids := by simp [hi.snapshot_nil]
  filled := by simp [hi.snapshot_nil]
  apart := hi.snapshot_nil ▸ List.Pairwise.nil
  pairs := by simp
  distinct := List.Pairwise.nil
  has := by simp [hi.snapshot_nil, Pairs.Has]
  count := by cases hi <;> rfl

/-- The keys of the map are those of the pairs, one for one. -/
theorem Keeps.keyCount (h : Keeps K i s) : i.keyCount = (Pairs.keys equal s).length := by
  have hC := hK.classes
  have hkeyed {a : Value} (ha : a ∈ Pairs.keys equal s) : K a ∧ ∃ id, (a, id) ∈ s := by
    obtain ⟨id, hid⟩ := Pairs.exists_of_mem_keys ha
    exact ⟨h.pairs _ hid, id, hid⟩
  have hstored {a : Value} (ha : a ∈ i.snapshot.map (·.1)) : K a := by
    obtain ⟨e, he, rfl⟩ := List.mem_map.mp ha
    exact h.stored e he
  rw [i.keyCount_eq, ← List.length_map (·.1)]
  refine le_antisymm ?_ ?_
  · refine Pairs.length_le_of_covers (R := fun a b => equal a b = true) ?_ ?_ ?_
    · refine List.pairwise_map.mpr (h.apart.imp_of_mem fun {d e} hd he hap heq => ?_)
      exact (hK.keysInOrder h (h.stored d hd)).not_apart (stored_mem_keys d hd)
        (stored_mem_keys e he) (of_decide_eq_true heq) hap
    · intro a ha
      obtain ⟨e, he, rfl⟩ := List.mem_map.mp ha
      obtain ⟨id, hid⟩ := List.exists_mem_of_ne_nil e.2 (h.filled e he)
      have hself := hK.sameKey_of_equal i.kind (h.stored e he) (h.stored e he)
        (hC.refl e.1 (h.stored e he))
      obtain ⟨p, hp, hpe, -⟩ := (h.has e.1 id (h.stored e he)).mp ⟨e, he, hself, hid⟩
      obtain ⟨b, hb, hpb⟩ := Pairs.exists_mem_keys (fun q hq => hC.refl q.1 (h.pairs q hq)) p hp
      exact ⟨b, hb, hC.trans e.1 p.1 b (h.stored e he) (h.pairs p hp) (hkeyed hb).1
        (hC.symm p.1 e.1 (h.pairs p hp) (h.stored e he) hpe) hpb⟩
    · intro a ha a' ha' b hb hab hab'
      exact hC.trans a b a' (hstored ha) (hkeyed hb).1 (hstored ha') hab
        (hC.symm a' b (hstored ha') (hkeyed hb).1 hab')
  · refine Pairs.length_le_of_covers (R := fun a b => equal a b = true) ?_ ?_ ?_
    · exact (List.pairwise_pwFilter _).imp fun hab heq =>
        absurd (hab.symm.trans heq) Bool.false_ne_true
    · intro a ha
      obtain ⟨hka, id, hid⟩ := hkeyed ha
      obtain ⟨e, he, hea, -⟩ := (h.has a id hka).mpr ⟨(a, id), hid, hC.refl a hka, rfl⟩
      exact ⟨e.1, List.mem_map_of_mem he,
        hC.symm e.1 a (h.stored e he) hka (equal_of_sameKey hea)⟩
    · intro a ha a' ha' b hb hab hab'
      exact hC.trans a b a' (hkeyed ha).1 (hstored hb) (hkeyed ha').1 hab
        (hC.symm a' b (hkeyed ha').1 (hstored hb) hab')

theorem Keeps.agrees (h : Keeps K i s) : i.Agrees K s where
  ascending := by
    intro key
    rw [i.lookup_eq, findSlot]
    cases hf : i.snapshot.find? fun e => sameKey i.kind e.1 key with
    | none => exact List.Pairwise.nil
    | some e => exact h.ids e (List.mem_of_find?_eq_some hf)
  lookup := fun _ hkey _ => h.mem_lookup hK hkey
  entryCount := h.count
  keyCount := h.keyCount hK
  filled := h.filled

/-- An index keeps what is filed, however the pairs are listed. -/
theorem Keeps.congr {t : List (Value × RecordId)} (h : Keeps K i s)
    (hd : Pairs.Distinct equal t) (ht : ∀ p ∈ t, K p.1)
    (hst : ∀ key id, K key → (Pairs.Has equal s key id ↔ Pairs.Has equal t key id)) :
    Keeps K i t where
  stored := h.stored
  ids := h.ids
  filled := h.filled
  apart := h.apart
  pairs := ht
  distinct := hd
  has := fun key id hkey => (h.has key id hkey).trans (hst key id hkey)
  count := by
    have hself {u : List (Value × RecordId)} (hu : ∀ p ∈ u, K p.1) :
        ∀ p ∈ u, Pairs.Has equal u p.1 p.2 :=
      fun p hp => ⟨p, hp, hK.classes.refl p.1 (hu p hp), rfl⟩
    rw [h.count]
    refine le_antisymm ?_ ?_
    · exact Pairs.length_le_of_has hK.classes h.distinct h.pairs ht fun p hp =>
        (hst p.1 p.2 (h.pairs p hp)).mp (hself h.pairs p hp)
    · exact Pairs.length_le_of_has hK.classes hd ht h.pairs fun p hp =>
        (hst p.1 p.2 (ht p hp)).mpr (hself ht p hp)

theorem has_foldl_insert {filed : List (Value × RecordId)} (hs : ∀ p ∈ s, K p.1)
    (hf : ∀ p ∈ filed, K p.1) (hkey : K key) :
    Pairs.Has equal (filed.foldl (fun s p => Pairs.insert equal p.1 p.2 s) s) key id ↔
      Pairs.Has equal s key id ∨ Pairs.Has equal filed key id := by
  induction filed generalizing s with
  | nil => simp [Pairs.Has]
  | cons p filed ih =>
    have hp := hf p List.mem_cons_self
    rw [List.foldl_cons, ih (Pairs.keyed_insert hs hp) fun q hq => hf q (List.mem_cons_of_mem _ hq),
      Pairs.has_insert hK.classes hs hp hkey]
    simp only [Pairs.Has, List.mem_cons, exists_eq_or_imp]
    exact or_assoc.trans or_left_comm

end Runs

/-! ## Filing a snapshot again -/

def AnyIndex.refill (i : AnyIndex) (entries : List (Value × List RecordId)) : AnyIndex :=
  entries.foldl (fun i e => e.2.foldl (fun i id => i.insert e.1 id) i) i

def filings (entries : List (Value × List RecordId)) : List (Value × RecordId) :=
  entries.flatMap fun e => e.2.map fun id => (e.1, id)

theorem AnyIndex.refill_eq (i : AnyIndex) (entries : List (Value × List RecordId)) :
    i.refill entries = i.after ((filings entries).map fun p => .insert p.1 p.2) := by
  rw [AnyIndex.after, List.foldl_map, filings, List.foldl_flatMap]
  simp only [List.foldl_map]
  rfl

/-- The snapshot of an index files in any fresh index what the index keeps. -/
theorem Keeps.refill {K : Value → Prop} (hK : Orderly K) {i j : AnyIndex}
    {s : List (Value × RecordId)} (h : Keeps K i s) (hj : j.Fresh)
    {entries : List (Value × List RecordId)} (hperm : entries.Perm i.snapshot) :
    Keeps K (j.refill entries) s := by
  have hmem {p : Value × RecordId} (hp : p ∈ filings entries) :
      ∃ e ∈ i.snapshot, p.1 = e.1 ∧ p.2 ∈ e.2 := by
    obtain ⟨e, he, hp⟩ := List.mem_flatMap.mp hp
    obtain ⟨id, hid, rfl⟩ := List.mem_map.mp hp
    exact ⟨e, hperm.mem_iff.mp he, rfl, hid⟩
  have hkeyed : ∀ p ∈ filings entries, K p.1 := by
    intro p hp
    obtain ⟨e, he, hpe, -⟩ := hmem hp
    exact hpe ▸ h.stored e he
  have hcalls : ∀ c ∈ (filings entries).map fun p => KeyCall.insert p.1 p.2, K c.key := by
    intro c hc
    obtain ⟨p, hp, rfl⟩ := List.mem_map.mp hc
    exact hkeyed p hp
  have hafter := hj.keeps.after hK hcalls
  rw [← j.refill_eq] at hafter
  refine hafter.congr hK h.distinct h.pairs fun key id hkey => ?_
  rw [List.foldl_map]
  have hnone : ∀ p ∈ ([] : List (Value × RecordId)), K p.1 := fun _ hp =>
    absurd hp List.not_mem_nil
  refine (has_foldl_insert hK hnone hkeyed hkey).trans (Iff.trans ?_ (h.has key id hkey))
  constructor
  · rintro (⟨p, hp, -⟩ | ⟨p, hp, heq, rfl⟩)
    · exact absurd hp List.not_mem_nil
    · obtain ⟨e, he, hpe, hid⟩ := hmem hp
      exact ⟨e, he, hK.sameKey_of_equal _ (h.stored e he) hkey (hpe ▸ heq), hid⟩
  · rintro ⟨e, he, hsame, hid⟩
    have hp : (e.1, id) ∈ filings entries :=
      List.mem_flatMap.mpr ⟨e, hperm.mem_iff.mpr he, List.mem_map_of_mem hid⟩
    exact .inr ⟨(e.1, id), hp, equal_of_sameKey hsame, rfl⟩

/-- Whatever is filed and taken out, an index of any kind is the set of the pairs that are
in; and its snapshot, filed again in any order, makes the same of a fresh index of any kind. -/
theorem kinds_are_one_multimap {K : Value → Prop} (hK : Orderly K) {i : AnyIndex} (hi : i.Fresh)
    {calls : List KeyCall} (hcalls : ∀ c ∈ calls, K c.key) :
    Pairs.Distinct equal (pairsAfter calls) ∧
    (i.after calls).Agrees K (pairsAfter calls) ∧
    ∀ j : AnyIndex, j.Fresh → ∀ entries, entries.Perm (i.after calls).snapshot →
      (j.refill entries).Agrees K (pairsAfter calls) := by
  have hkeeps : Keeps K (i.after calls) (pairsAfter calls) := hi.keeps.after hK hcalls
  exact ⟨hkeeps.distinct, hkeeps.agrees hK,
    fun j hj entries hperm => (hkeeps.refill hK hj hperm).agrees hK⟩

/-- Two keys of different kinds. -/
theorem orderly_two : Orderly fun v => v = .i64 7 ∨ v = .str "a" where
  linked := by
    rintro a b c (rfl | rfl) (rfl | rfl) (rfl | rfl)
    all_goals (unfold Linked; decide)
  hashed := by
    rintro a b (rfl | rfl) (rfl | rfl) heq
    · rfl
    · exact absurd heq (by decide)
    · exact absurd heq (by decide)
    · rfl

theorem bitmap_refilled :
    ((AnyIndex.btree (.new "n")).refill ((AnyIndex.bitmap (.new "n")).after
      [.insert (.i64 7) 70, .insert (.str "a") 3, .insert (.i64 7) 1, .remove (.i64 7) 70,
        .remove (.str "a") 3]).snapshot).Agrees (fun v => v = .i64 7 ∨ v = .str "a")
      (pairsAfter [.insert (.i64 7) 70, .insert (.str "a") 3, .insert (.i64 7) 1,
        .remove (.i64 7) 70, .remove (.str "a") 3]) :=
  (kinds_are_one_multimap orderly_two (.bitmap "n") (by simp [KeyCall.key])).2.2 _ (.btree "n") _
    (List.Perm.refl _)

end Adabt.Indexing
