import Adabt.Engine.IndexRuns

/-! # What a clean report means

`verify` walks the ids of an index for records that are gone and the records for
ids that are missing. Neither walk asks whether a record that is there belongs
under the key it is listed under, or what a covering index has stored beside it,
and the key that the second walk asks for is made out from the name. -/

set_option autoImplicit false

namespace Adabt.Indexing
open Adabt.Core Adabt.Ir Adabt.Library

namespace Index

variable {K : Value → Prop} {i j : Index} {rows : List (RecordId × Record)}
  {records : OrdMap RecordId Record} {id : RecordId} {key : Value}

/-- Whatever a map of keys in `K` may hold. -/
structure Contents (K : Value → Prop) (i : Index) : Prop where
  stored : ∀ e ∈ i.entries, K e.1
  keys : i.entries.Pairwise fun a b => Apart i.kind a.1 b.1

theorem InStep.contents (h : i.InStep K records) : i.Contents K := ⟨h.stored, h.filed.keys⟩

/-- Two entries of one map with equal keys are one. -/
theorem Contents.unique (hc : i.Contents K) (ho : Orderly K) {d e : Value × List RecordId}
    (hd : d ∈ i.entries) (he : e ∈ i.entries) (hde : d.1.cmp e.1 = .eq) : d = e := by
  have hkeys : KeysInOrder i.kind [d.1, e.1] := by
    apply ho.inOrder
    simp [hc.stored d hd, hc.stored e he]
  have hpair : i.entries.Pairwise fun x y => Apart i.kind x.1 y.1 ∨ Apart i.kind y.1 x.1 :=
    hc.keys.imp fun hxy => .inl hxy
  have : Std.Symm fun x y : Value × List RecordId =>
      Apart i.kind x.1 y.1 ∨ Apart i.kind y.1 x.1 := ⟨fun _ _ => Or.symm⟩
  by_contra hne
  rcases hpair.forall hd he hne with hap | hap
  · exact hkeys.not_apart (by simp) (by simp) hde hap
  · exact hkeys.not_apart (by simp) (by simp) (cmp_eq_symm hde) hap

theorem Contents.mem_lookup (hc : i.Contents K) (ho : Orderly K) (hkey : K key) :
    id ∈ i.lookup key ↔ ∃ e ∈ i.entries, sameKey i.kind e.1 key = true ∧ id ∈ e.2 := by
  unfold lookup
  constructor
  · intro hid
    cases hf : i.entries.find? fun e => sameKey i.kind e.1 key with
    | none =>
      rw [hf] at hid
      cases hid
    | some e =>
      rw [hf] at hid
      have hsame := List.find?_some hf
      exact ⟨e, List.mem_of_find?_eq_some hf, hsame, hid⟩
  · rintro ⟨e, he, hsame, hid⟩
    cases hf : i.entries.find? fun e => sameKey i.kind e.1 key with
    | none => exact absurd hsame (List.find?_eq_none.mp hf e he)
    | some d =>
      have hd := List.mem_of_find?_eq_some hf
      have hds : sameKey i.kind d.1 key = true := by
        have := List.find?_some hf
        exact this
      have hkeys : KeysInOrder i.kind [d.1, key, e.1] := by
        apply ho.inOrder
        simp [hc.stored d hd, hc.stored e he, hkey]
      have hde : d.1.cmp e.1 = .eq := hkeys.eq_trans (by simp) (by simp) (by simp)
        (sameKey_cmp hds) (cmp_eq_symm (sameKey_cmp hsame))
      rw [hc.unique ho hd he hde]
      exact hid

/-- An index in step lists a record under its own key and under no other. -/
theorem InStep.mem_lookup (h : i.InStep K records) (ho : Orderly K) (hkey : K key) :
    id ∈ i.lookup key ↔ ∃ k ∈ wants i.shape records id, sameKey i.kind k key = true := by
  rw [h.contents.mem_lookup ho hkey]
  constructor
  · rintro ⟨e, he, hsame, hid⟩
    obtain ⟨k, hk, hek⟩ := h.filed.sound e he id hid
    have hkeys : KeysInOrder i.kind [k, e.1, key] := by
      apply ho.inOrder
      simp [h.wanted id k hk, h.stored e he, hkey]
    refine ⟨k, hk, hkeys.sameKey_of_cmp (by simp) (by simp) ?_⟩
    exact hkeys.eq_trans (by simp) (by simp) (by simp) (cmp_eq_symm (sameKey_cmp hek))
      (sameKey_cmp hsame)
  · rintro ⟨k, hk, hsame⟩
    obtain ⟨e, he, hek, hid⟩ := h.filed.complete id k hk
    have hkeys : KeysInOrder i.kind [e.1, k, key] := by
      apply ho.inOrder
      simp [h.wanted id k hk, h.stored e he, hkey]
    refine ⟨e, he, hkeys.sameKey_of_cmp (by simp) (by simp) ?_, hid⟩
    exact hkeys.eq_trans (by simp) (by simp) (by simp) (sameKey_cmp hek) (sameKey_cmp hsame)

/-! ## Against an index built anew -/

/-- The same ids under every key, and the same projections. -/
structure Agrees (K : Value → Prop) (i j : Index) : Prop where
  lists : ∀ key, K key → ∀ id, id ∈ i.lookup key ↔ id ∈ j.lookup key
  rows : ∀ f covers, i.shape = .covering f covers → ∀ id, i.covered id = j.covered id

/-- Every id listed is that of a record. -/
def Present (i : Index) (rows : List (RecordId × Record)) : Prop :=
  ∀ e ∈ i.entries, ∀ id ∈ e.2, id ∈ rows.map (·.1)

/-- Every record is listed under the key that `ask` gives it. -/
def Lists (i : Index) (rows : List (RecordId × Record)) (ask : Record → Option Value) : Prop :=
  ∀ r ∈ rows, ∀ k ∈ ask r.2, r.1 ∈ i.lookup k

/-- No record is listed under a key that is not its own. -/
def OwnKeys (i : Index) (rows : List (RecordId × Record)) : Prop :=
  ∀ e ∈ i.entries, ∀ r ∈ rows, r.1 ∈ e.2 → ∃ k ∈ i.shape.key r.2, sameKey i.kind e.1 k = true

/-- What a covering index has stored is the projections of the records. -/
def Projects (i : Index) (rows : List (RecordId × Record)) : Prop :=
  ∀ f covers, i.shape = .covering f covers →
    (∀ r ∈ rows, i.covered r.1 = i.shape.rowFor r.2) ∧ ∀ id ∉ rows.map (·.1), i.covered id = none

/-- The index is what its definition makes of the records that are there. -/
structure Right (i : Index) (rows : List (RecordId × Record)) : Prop where
  complete : i.Lists rows i.shape.key
  own : i.OwnKeys rows
  projects : i.Projects rows

theorem wants_of_mem (shape : IndexShape) {r : RecordId × Record} (hr : r ∈ records.entries) :
    wants shape records r.1 = shape.key r.2 := by
  rw [wants, (OrdMap.mem_entries records r.1 r.2).mp hr, Option.bind_some]

theorem mem_of_wanted {shape : IndexShape} {k : Value} (hk : k ∈ wants shape records id) :
    ∃ r ∈ records.entries, r.1 = id ∧ shape.key r.2 = some k := by
  obtain ⟨r, hr, hrk⟩ := Option.bind_eq_some_iff.mp hk
  exact ⟨(id, r), (OrdMap.mem_entries records id r).mpr hr, rfl, hrk⟩

theorem Right.wants_iff (h : i.Right records.entries) (hp : i.Present records.entries)
    (hc : i.Contents K) (ho : Orderly K) (hkey : K key)
    (hK : ∀ r ∈ records.entries, ∀ k ∈ i.shape.key r.2, K k) :
    id ∈ i.lookup key ↔ ∃ k ∈ wants i.shape records id, sameKey i.kind k key = true := by
  rw [hc.mem_lookup ho hkey]
  constructor
  · rintro ⟨e, he, hsame, hid⟩
    obtain ⟨r, hr, rfl⟩ := List.mem_map.mp (hp e he id hid)
    obtain ⟨k, hk, hek⟩ := h.own e he r hr hid
    have hkeys : KeysInOrder i.kind [k, e.1, key] := by
      apply ho.inOrder
      simp [hK r hr k hk, hc.stored e he, hkey]
    refine ⟨k, (wants_of_mem i.shape hr).trans hk, hkeys.sameKey_of_cmp (by simp) (by simp) ?_⟩
    exact hkeys.eq_trans (by simp) (by simp) (by simp) (cmp_eq_symm (sameKey_cmp hek))
      (sameKey_cmp hsame)
  · rintro ⟨k, hk, hsame⟩
    obtain ⟨r, hr, rfl, hrk⟩ := mem_of_wanted hk
    obtain ⟨e, he, hek, hid⟩ := (hc.mem_lookup ho (hK r hr k hrk)).mp (h.complete r hr k hrk)
    have hkeys : KeysInOrder i.kind [e.1, k, key] := by
      apply ho.inOrder
      simp [hK r hr k hrk, hc.stored e he, hkey]
    refine ⟨e, he, hkeys.sameKey_of_cmp (by simp) (by simp) ?_, hid⟩
    exact hkeys.eq_trans (by simp) (by simp) (by simp) (sameKey_cmp hek) (sameKey_cmp hsame)

theorem covered_of_inStep (h : j.InStep K records) (id : RecordId) :
    j.covered id = (records.get id).bind j.shape.rowFor := h.rows id

theorem projects_iff (hj : j.InStep K records) (hshape : j.shape = i.shape) :
    i.Projects records.entries ↔
      ∀ f covers, i.shape = .covering f covers → ∀ id, i.covered id = j.covered id := by
  have hmem := OrdMap.mem_entries records
  constructor
  · intro h f covers hs x
    obtain ⟨hthere, hgone⟩ := h f covers hs
    rw [covered_of_inStep hj, hshape]
    cases hx : records.get x with
    | none =>
      refine hgone x fun hin => ?_
      obtain ⟨r, hr, rfl⟩ := List.mem_map.mp hin
      rw [(hmem r.1 r.2).mp hr] at hx
      cases hx
    | some r => exact hthere (x, r) ((hmem x r).mpr hx)
  · intro h f covers hs
    constructor
    · intro r hr
      rw [h f covers hs, covered_of_inStep hj, (hmem r.1 r.2).mp hr, hshape]
      rfl
    · intro x hx
      rw [h f covers hs, covered_of_inStep hj]
      cases hg : records.get x with
      | none => rfl
      | some r => exact absurd (List.mem_map_of_mem ((hmem x r).mpr hg)) hx

/-- An index agrees with one built anew when it lists no id without a record and is right
about those that have one. -/
theorem agrees_iff (hj : j.InStep K records) (hshape : j.shape = i.shape) (hkind : j.kind = i.kind)
    (ho : Orderly K) (hc : i.Contents K) :
    i.Agrees K j ↔ i.Present records.entries ∧ i.Right records.entries := by
  have hK : ∀ r ∈ records.entries, ∀ k ∈ i.shape.key r.2, K k := by
    intro r hr k hk
    refine hj.wanted r.1 k ?_
    rw [hshape]
    exact (wants_of_mem i.shape hr).trans hk
  constructor
  · intro h
    -- Whatever an entry lists, the index built anew lists under the same key.
    have hown : ∀ e ∈ i.entries, ∀ id ∈ e.2,
        ∃ k ∈ wants i.shape records id, sameKey i.kind k e.1 = true := by
      intro e he id hid
      have hKe := hc.stored e he
      have hlisted : id ∈ i.lookup e.1 :=
        (hc.mem_lookup ho hKe).mpr ⟨e, he, sameKey_refl i.kind e.1, hid⟩
      have hanew := (hj.mem_lookup ho hKe).mp ((h.lists e.1 hKe id).mp hlisted)
      rwa [hshape, hkind] at hanew
    refine ⟨fun e he id hid => ?_, fun r hr k hk => ?_, fun e he r hr hid => ?_,
      (projects_iff hj hshape).mpr h.rows⟩
    · obtain ⟨k, hk, -⟩ := hown e he id hid
      obtain ⟨r, hr, rfl, -⟩ := mem_of_wanted hk
      exact List.mem_map_of_mem hr
    · refine (h.lists k (hK r hr k hk) r.1).mpr ((hj.mem_lookup ho (hK r hr k hk)).mpr ⟨k, ?_, ?_⟩)
      · rw [hshape]
        exact (wants_of_mem i.shape hr).trans hk
      · exact sameKey_refl _ k
    · obtain ⟨k, hk, hsame⟩ := hown e he r.1 hid
      rw [wants_of_mem i.shape hr] at hk
      have hkeys : KeysInOrder i.kind [e.1, k] := by
        apply ho.inOrder
        simp [hc.stored e he, hK r hr k hk]
      exact ⟨k, hk, hkeys.sameKey_of_cmp (by simp) (by simp) (cmp_eq_symm (sameKey_cmp hsame))⟩
  · rintro ⟨hp, hr⟩
    refine ⟨fun key hkey id => ?_, (projects_iff hj hshape).mp hr.projects⟩
    rw [hr.wants_iff hp hc ho hkey hK, hj.mem_lookup ho hkey, hshape, hkind]

end Index

end Adabt.Indexing

namespace Adabt.Storage.Heap
open Adabt.Core Adabt.Library

variable (E : Env)

theorem readRows_ids {h : Heap} {name : String} {locs : List (RecordId × RecordLocation)}
    {rows : List (RecordId × Record)} (hr : readRows E h name locs = .ok rows) :
    rows.map (·.1) = locs.map (·.1) := by
  induction locs generalizing rows with
  | nil =>
    cases hr
    rfl
  | cons l locs ih =>
    obtain ⟨rec, -, hr⟩ := bind_eq_ok.mp hr
    obtain ⟨rest, hrest, hr⟩ := bind_eq_ok.mp hr
    cases hr
    rw [List.map_cons, List.map_cons, ih hrest]

/-- The rows of a scan are the entries of a map. -/
theorem exists_records {h : Heap} {name : String} {rows : List (RecordId × Record)}
    (hr : scan E h name = .ok rows) : ∃ records : OrdMap RecordId Record, records.entries = rows := by
  unfold scan scanBy at hr
  cases hc : h.collections.get name with
  | none =>
    rw [hc] at hr
    cases hr
  | some c =>
    rw [hc] at hr
    have hsorted : ((rowLocations (·.newest) c.directory).map (·.1)).Pairwise (· < ·) := by
      rw [rowLocations, List.pairwise_map]
      refine List.Pairwise.filterMap _ (fun a b hab x hx y hy => ?_) c.directory.sorted
      obtain ⟨_, -, rfl⟩ := Option.map_eq_some_iff.mp hx
      obtain ⟨_, -, rfl⟩ := Option.map_eq_some_iff.mp hy
      exact hab
    rw [← readRows_ids E hr, List.pairwise_map] at hsorted
    exact ⟨⟨rows, hsorted⟩, rfl⟩

end Adabt.Storage.Heap

namespace Adabt.Engine
open Adabt.Core Adabt.Indexing Adabt.Ir Adabt.Library Adabt.Storage

/-! ## The two walks -/

variable {i : Index} {rows : List (RecordId × Record)}

/-- What `verify` has to say about one index. -/
def problemsIn (rows : List (RecordId × Record)) (i : Index) : List Problem :=
  danglingIn rows i ++ unlistedIn rows i

theorem danglingIn_eq_nil : danglingIn rows i = [] ↔ i.Present rows := by
  unfold danglingIn Index.Present
  rw [List.flatMap_eq_nil_iff]
  refine forall₂_congr fun e _ => ?_
  rw [List.map_eq_nil_iff, List.filter_eq_nil_iff]
  refine forall₂_congr fun id _ => ?_
  rw [decide_eq_true_eq, not_not]

theorem unlistedIn_eq_nil :
    unlistedIn rows i = [] ↔ ∃ ask, expectedKey i.field = some ask ∧ i.Lists rows ask := by
  unfold unlistedIn
  cases expectedKey i.field with
  | none => simp
  | some ask =>
    constructor
    · intro h
      refine ⟨ask, rfl, fun r hr k hk => ?_⟩
      have hnone := List.filterMap_eq_nil_iff.mp h r hr
      rw [Option.mem_def.mp hk, Option.bind_some] at hnone
      by_contra hlisted
      rw [if_neg hlisted] at hnone
      cases hnone
    · rintro ⟨_, ⟨⟩, h⟩
      refine List.filterMap_eq_nil_iff.mpr fun r hr => ?_
      cases hk : ask r.2 with
      | none => rfl
      | some k => rw [Option.bind_some, if_pos (h r hr k hk)]

theorem problemsIn_eq_nil : problemsIn rows i = [] ↔
    i.Present rows ∧ ∃ ask, expectedKey i.field = some ask ∧ i.Lists rows ask := by
  rw [problemsIn, List.append_eq_nil_iff, danglingIn_eq_nil, unlistedIn_eq_nil]

/-- The name does not ask for a record under a key that is not its own. -/
def NamesItself (i : Index) (rows : List (RecordId × Record)) : Prop :=
  ∃ ask, expectedKey i.field = some ask ∧ ∀ r ∈ rows, ∀ k ∈ ask r.2,
    ∃ own ∈ i.shape.key r.2, sameKey i.kind own k = true

/-- Neither walk finds anything, and a record stands under a key that is not its own, is
missing from under its own, or has another projection beside it. -/
def Overlooked (i : Index) (rows : List (RecordId × Record)) : Prop :=
  i.Present rows ∧ (∃ ask, expectedKey i.field = some ask ∧ i.Lists rows ask) ∧ ¬ i.Right rows

/-- The index is right, and its name asks it for something else. -/
def Misread (i : Index) (rows : List (RecordId × Record)) : Prop :=
  i.Present rows ∧ i.Right rows ∧ ¬ NamesItself i rows

/-- The name of every index that the engine declares over plain names asks for the
record's own key. -/
theorem namesItself_of_legible (h : Legible i.shape) : NamesItself i rows := by
  obtain ⟨ask, hname, hsame⟩ := h
  refine ⟨ask, hname, fun r _ k hk => ⟨k, ?_, sameKey_refl i.kind k⟩⟩
  rwa [← hsame]

theorem not_own_list : (v : Value) → (Value.list [v]).cmp v ≠ .eq
  | .list [] => by simp [Value.cmp, Value.cmpList]
  | .list (w :: ws) => by
    rw [Value.cmp, Value.cmpList, ne_eq, Ordering.then_eq_eq]
    rintro ⟨hw, hws⟩
    cases ws with
    | nil => exact not_own_list w hw
    | cons x ws => cases hws
  | .null | .bool _ | .i64 _ | .u64 _ | .f64 _ | .decimal _ _ | .str _ | .bytes _ | .map _
  | .timestamp _ => by simp [Value.cmp, Value.rank, compare, compareOfLessAndEq]

/-- The name of a composite of one field is the field's, and asks for the bare value
where the index files a list. -/
theorem namesItself_one_field {f : String} (hf : Plain f) (hs : i.shape = .composite [f]) :
    NamesItself i rows ↔ ∀ r ∈ rows, filedValue r.2 f = none := by
  obtain ⟨ask, hname, hask⟩ := legible_single hf
  have hfield : i.field = f := by
    rw [Index.field, hs]
    rfl
  have hbare : ∀ rec, ask rec = filedValue rec f := hask
  have hown : ∀ rec, i.shape.key rec = (filedValue rec f).map fun v => Value.list [v] := by
    intro rec
    rw [hs]
    change (filedValues rec [f]).map Value.list = _
    unfold filedValues
    cases filedValue rec f <;> rfl
  change expectedKey f = some ask at hname
  unfold NamesItself
  rw [hfield, hname]
  constructor
  · rintro ⟨_, ⟨⟩, h⟩ r hr
    cases hv : filedValue r.2 f with
    | none => rfl
    | some v =>
      obtain ⟨k, hk, hsame⟩ := h r hr v ((hbare r.2).trans hv)
      rw [hown, hv] at hk
      cases hk
      exact absurd (sameKey_cmp hsame) (not_own_list v)
  · intro h
    refine ⟨ask, rfl, fun r hr k hk => ?_⟩
    rw [hbare, h r hr] at hk
    cases hk

namespace Database

variable {δ : Type} (E : Env) {K : Value → Prop}

/-- The report holds what is said about each index of each collection, and no more. -/
theorem mem_indexProblems {db : Database δ} {problems : List Problem}
    (h : db.indexProblems E = .ok problems) {p : Problem} :
    p ∈ problems ↔ ∃ c ∈ db.store.collectionNames, ∃ rows, Heap.scan E db.store c = .ok rows ∧
      ∃ i ∈ db.indexList c, p ∈ problemsIn rows i := by
  obtain ⟨lists, hlists, hp⟩ := bind_eq_ok.mp h
  cases hp
  have hall := forall₂_of_mapM hlists
  have hone : ∀ c ps, db.collectionProblems E c = .ok ps → ∃ rows,
      Heap.scan E db.store c = .ok rows ∧ ps = (db.indexList c).flatMap (problemsIn rows) := by
    intro c ps hps
    obtain ⟨rows, hrows, hps⟩ := bind_eq_ok.mp hps
    exact ⟨rows, hrows, (Except.ok.inj hps).symm⟩
  rw [List.mem_flatten]
  constructor
  · rintro ⟨ps, hps, hp⟩
    obtain ⟨c, hc, hcps⟩ := forall₂_mem_right hall hps
    obtain ⟨rows, hrows, rfl⟩ := hone c ps hcps
    obtain ⟨i, hi, hp⟩ := List.mem_flatMap.mp hp
    exact ⟨c, hc, rows, hrows, i, hi, hp⟩
  · rintro ⟨c, hc, rows, hrows, i, hi, hp⟩
    obtain ⟨ps, hps, hcps⟩ := forall₂_mem_left hall hc
    obtain ⟨rows', hrows', rfl⟩ := hone c ps hcps
    cases hrows.symm.trans hrows'
    exact ⟨_, hps, List.mem_flatMap.mpr ⟨i, hi, hp⟩⟩

/-- A lookup answers with the ids of the rows whose key equals the one asked for. -/
def AnswersAsScan (K : Value → Prop) (i : Index) (rows : List (RecordId × Record)) : Prop :=
  ∀ key, K key → ∀ id, id ∈ i.lookup key ↔
    ∃ r ∈ rows, r.1 = id ∧ ∃ k ∈ i.shape.key r.2, k.cmp key = .eq

theorem tells_iff {present listed right named answers : Prop}
    (hnames : present → right → (listed ↔ named)) (hanswers : present → right → answers) :
    ((present ∧ listed ↔ present ∧ right) ∧ (present ∧ listed → answers)) ↔
      ¬ (present ∧ listed ∧ ¬ right) ∧ ¬ (present ∧ right ∧ ¬ named) := by
  by_cases hp : present
  · by_cases hr : right
    · simp [hp, hr, hnames hp hr, hanswers hp hr]
    · simp +contextual [hp, hr]
  · simp [hp]

/-- `verify` tells an index that is as one built from the heap from one that is not,
unless the fault is one that neither walk asks about or the name asks for other keys. -/
theorem verify_tells_iff {db : Database δ} {c : String} (hc : c ∈ db.store.collectionNames)
    {rows : List (RecordId × Record)} (hrows : Heap.scan E db.store c = .ok rows) {i : Index}
    (hi : i ∈ db.indexList c) (ho : Orderly K) (hcontents : i.Contents K)
    (hown : ∀ r ∈ rows, ∀ k ∈ i.shape.key r.2, K k)
    (hask : ∀ ask, expectedKey i.field = some ask → ∀ r ∈ rows, ∀ k ∈ ask r.2, K k)
    {problems : List Problem} (hproblems : db.indexProblems E = .ok problems) :
    (((∀ p ∈ problemsIn rows i, p ∉ problems) ↔ i.Agrees K (.ofRows i.shape i.kind rows)) ∧
      ((∀ p ∈ problemsIn rows i, p ∉ problems) → AnswersAsScan K i rows)) ↔
    ¬ Overlooked i rows ∧ ¬ Misread i rows := by
  obtain ⟨records, rfl⟩ := Heap.exists_records E hrows
  have hclean : (∀ p ∈ problemsIn records.entries i, p ∉ problems) ↔
      problemsIn records.entries i = [] := by
    refine ⟨fun h => List.eq_nil_iff_forall_not_mem.mpr fun p hp => h p hp ?_, fun h p hp => ?_⟩
    · exact (mem_indexProblems E hproblems).mpr ⟨c, hc, _, hrows, i, hi, hp⟩
    · rw [h] at hp
      cases hp
  have hj : (Index.ofRows i.shape i.kind records.entries).InStep K records :=
    Index.build_inStep ho i.shape i.kind hown
  have hagrees := Index.agrees_iff hj (Index.shape_build _ _ _) (Index.kind_build _ _ _) ho hcontents
  have hanswers : i.Present records.entries → i.Right records.entries →
      AnswersAsScan K i records.entries := by
    intro hp hr key hkey id
    rw [hr.wants_iff hp hcontents ho hkey hown]
    constructor
    · rintro ⟨k, hk, hsame⟩
      obtain ⟨r, hr, hid, hrk⟩ := Index.mem_of_wanted hk
      exact ⟨r, hr, hid, k, hrk, sameKey_cmp hsame⟩
    · rintro ⟨r, hr, rfl, k, hk, heq⟩
      have hkeys : KeysInOrder i.kind [k, key] := by
        apply ho.inOrder
        simp [hown r hr k hk, hkey]
      exact ⟨k, (Index.wants_of_mem i.shape hr).trans hk,
        hkeys.sameKey_of_cmp (by simp) (by simp) heq⟩
  -- A right index lists what its name asks for just when the name asks for its own keys.
  have hnames : i.Present records.entries → i.Right records.entries →
      ((∃ ask, expectedKey i.field = some ask ∧ i.Lists records.entries ask) ↔
        NamesItself i records.entries) := by
    intro hp hr
    refine exists_congr fun ask => and_congr_right fun hname => ?_
    refine forall₂_congr fun r hrm => forall₂_congr fun k hk => ?_
    rw [hr.wants_iff hp hcontents ho (hask ask hname r hrm k hk) hown,
      Index.wants_of_mem i.shape hrm]
  rw [hclean, problemsIn_eq_nil, hagrees]
  unfold Overlooked Misread
  exact tells_iff hnames hanswers

/-- A collection with one record and an index on its field. -/
def sevenDb : Database Unit := run (IndexCommand.step Env.plain Upkeep.none) fresh
  [.createCollection "c" signedSchema, .createIndex "c" "n" .hash, .insert "c" 1 sevenRecord]

def sevenIndex : Index := ⟨.single "n", .hash, [(.i64 7, [1])], ∅⟩

theorem verify_tells_seven :
    (((∀ p ∈ problemsIn [(1, sevenRecord)] sevenIndex, p ∉ ([] : List Problem)) ↔
        sevenIndex.Agrees (· = .i64 7) (.ofRows (.single "n") .hash [(1, sevenRecord)])) ∧
      ((∀ p ∈ problemsIn [(1, sevenRecord)] sevenIndex, p ∉ ([] : List Problem)) →
        AnswersAsScan (· = .i64 7) sevenIndex [(1, sevenRecord)])) ↔
    ¬ Overlooked sevenIndex [(1, sevenRecord)] ∧ ¬ Misread sevenIndex [(1, sevenRecord)] := by
  have hrows : Heap.scan Env.plain sevenDb.store "c" = .ok [(1, sevenRecord)] := rfl
  have hi : sevenIndex ∈ sevenDb.indexList "c" := List.mem_singleton.mpr rfl
  have hc : "c" ∈ sevenDb.store.collectionNames := by decide
  refine verify_tells_iff Env.plain hc hrows hi orderly_seven ⟨?_, ?_⟩ ?_ ?_ rfl
  · exact List.forall_mem_singleton.mpr rfl
  · exact List.pairwise_singleton _ _
  · exact List.forall_mem_singleton.mpr fun k hk => (Option.some.inj hk).symm
  · rintro ask hask
    obtain rfl : probe ["n"] = ask := Option.some.inj hask
    exact List.forall_mem_singleton.mpr fun k hk => (Option.some.inj hk).symm

/-- The index goes on listing a record under a key that it no longer has. -/
def staleIndex : Index := { sevenIndex with entries := [(.i64 7, [1]), (.i64 8, [1])] }

def staleDb : Database Unit := { sevenDb with indexes := ⟨[("c", [staleIndex])], .cons nofun .nil⟩ }

/-- Neither walk asks whether a record that is there has the key it is listed under. -/
theorem stale_key_unreported : ¬ (staleDb.indexProblems Env.plain = .ok [] ↔
    ∀ i ∈ staleDb.indexList "c", ∀ rows, Heap.scan Env.plain staleDb.store "c" = .ok rows →
      ∀ key id, id ∈ i.lookup key ↔ id ∈ (Index.ofRows i.shape i.kind rows).lookup key) := by
  intro h
  have hclean : staleDb.indexProblems Env.plain = .ok [] := rfl
  have hall := h.mp hclean staleIndex (List.mem_singleton.mpr rfl) [(1, sevenRecord)] rfl (.i64 8) 1
  exact absurd (hall.mp (by decide)) (by decide)

end Database

end Adabt.Engine
