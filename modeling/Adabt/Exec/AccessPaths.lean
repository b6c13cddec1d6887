import Adabt.Exec.Planner
import Adabt.Exec.RunRows
import Adabt.Indexing.Index
import Adabt.Indexing.Serving

/-! # What the access paths hand up

Under the filter that chose it, an access path through an index hands up the
rows a scan would: at least those the filter keeps, in id order. A covering index
hands up projections in their place. -/

set_option autoImplicit false

namespace Adabt.Exec
open Adabt.Core Adabt.Ir Adabt.Indexing Adabt.Library

variable {src : QuerySource} {collection : String} {records : OrdMap RecordId Record}
  {predicate : Expr}

/-- The rows of a scan that the filter keeps. -/
def kept (records : OrdMap RecordId Record) (predicate : Expr) : List Row :=
  records.entries.filter fun r => predicate.matches' r.2

theorem mem_kept {r : Row} : r ∈ kept records predicate ↔
    r ∈ records.entries ∧ predicate.matches' r.2 = true := List.mem_filter

/-! ## Rows that are fetched -/

theorem filter_fetched {ids : List RecordId} (h : ∀ r ∈ kept records predicate, r.1 ∈ ids) :
    (records.entries.filter fun r => r.1 ∈ ids).filter (fun r => predicate.matches' r.2) =
      kept records predicate := by
  rw [List.filter_filter, kept]
  apply List.filter_congr
  intro r hr
  cases hm : predicate.matches' r.2 with
  | false => rfl
  | true => simpa using h r (mem_kept.mpr ⟨hr, hm⟩)

/-- Whatever ids an index gave, as long as the kept rows are among them. -/
theorem filter_fetchOrScan (hc : src.store.get collection = some records)
    {found : Option (List RecordId)} (h : ∀ ids ∈ found, ∀ r ∈ kept records predicate, r.1 ∈ ids) :
    (List.filter fun r => predicate.matches' r.2) <$> List.flatten <$>
      fetchOrScan src collection found = .ok (kept records predicate) := by
  cases found with
  | none =>
    rw [fetchOrScan, scanBatches_rows hc]
    rfl
  | some ids =>
    rw [fetchOrScan, fetchBatches_rows hc]
    exact congrArg Except.ok (filter_fetched (h ids rfl))

theorem matches_true {rec : Record} (h : predicate.matches' rec = true) :
    predicate.evaluate rec = .true := by
  rw [Expr.matches', Truth.isTrue, decide_eq_true_eq] at h
  exact h

theorem filedValue_eq {rec : Record} {f : String} {v : OrdValue} (hv : rec.get f = some v)
    (hn : v.1.isNull = false) : filedValue rec f = some v.1 := by
  rw [filedValue, hv, Option.filter_some, if_pos (by simp [hn])]
  rfl

theorem mem_of_pinned {equalities : List (String × Value)} {f : String} {v : Value}
    (h : pinned equalities f = some v) : (f, v) ∈ equalities := by
  obtain ⟨c, hc, rfl⟩ := Option.map_eq_some_iff.mp h
  have hf := List.find?_some (p := fun c : String × Value => c.1 = f) hc
  rw [decide_eq_true_eq] at hf
  exact hf ▸ List.mem_of_find?_eq_some hc

/-- A record kept is filed under a key equal to the one pinned. -/
theorem filed_of_pinned {f : String} {key : Value}
    (h : pinned predicate.equalityConstraints f = some key) {rec : Record}
    (hm : predicate.matches' rec = true) : ∃ k, filedValue rec f = some k ∧ k.cmp key = .eq := by
  obtain ⟨v, hv, hn, hcmp⟩ := Expr.equality_holds predicate (mem_of_pinned h) (matches_true hm)
  exact ⟨v.1, filedValue_eq hv hn, hcmp⟩

/-- The order and the hash are sound among the keys of an index and those asked. -/
def AskedInOrder (i : Index) (records : OrdMap RecordId Record) (asked : List Value) : Prop :=
  KeysInOrder i.kind (i.keysWith records asked)

/-- Every row the filter keeps is one the index admits. -/
def AdmitsKept (i : Index) (records : OrdMap RecordId Record) (predicate : Expr) : Prop :=
  ∀ r ∈ records.entries, predicate.matches' r.2 = true → i.shape.admits r.2 = true

theorem key_of_base {i : Index} {f : String} (hb : i.shape.base = some f) {rec : Record}
    (ha : i.shape.admits rec = true) : i.shape.key rec = filedValue rec f := by
  rw [IndexShape.key, if_pos ha, IndexShape.keyFor_base hb]

/-- A probe for the key a predicate pins finds every row the predicate keeps. -/
theorem lookup_kept {i : Index} {f : String} {key : Value} (hi : i.Holds records)
    (hb : i.shape.base = some f) (hk : pinned predicate.equalityConstraints f = some key)
    (ho : AskedInOrder i records [key]) (ha : AdmitsKept i records predicate) :
    ∀ r ∈ kept records predicate, r.1 ∈ i.lookup key := by
  intro r hr
  obtain ⟨hr, hm⟩ := mem_kept.mp hr
  obtain ⟨k, hfk, hcmp⟩ := filed_of_pinned hk hm
  exact Index.lookup_complete hi ho hr ((key_of_base hb (ha r hr hm)).trans hfk) hcmp

theorem range_kept {i : Index} {f : String} {lo hi : Bound} (hi' : i.Holds records)
    (hb : i.shape.base = some f) (hr : predicate.rangeConstraint f = some (lo, hi))
    (ho : AskedInOrder i records (lo.literals ++ hi.literals))
    (ha : AdmitsKept i records predicate) :
    ∀ r ∈ kept records predicate, r.1 ∈ i.rangeIds lo hi := by
  intro r hk
  obtain ⟨hrm, hm⟩ := mem_kept.mp hk
  obtain ⟨v, hv, hn, hlo, hhi⟩ := Expr.range_holds hr (matches_true hm)
  exact Index.range_complete hi' ho hrm
    ((key_of_base hb (ha r hrm hm)).trans (filedValue_eq hv hn)) hlo hhi

theorem pinned_of_pinnedAll {equalities : List (String × Value)} {fields : List String}
    {parts : List Value} (h : pinnedAll equalities fields = some parts) :
    List.Forall₂ (fun f v => pinned equalities f = some v) fields parts := by
  induction fields generalizing parts with
  | nil =>
    cases h
    exact .nil
  | cons f fields ih =>
    obtain ⟨v, hv, h⟩ := Option.bind_eq_some_iff.mp h
    obtain ⟨rest, hrest, h⟩ := Option.bind_eq_some_iff.mp h
    cases h
    exact .cons hv (ih hrest)

theorem filed_of_pinnedAll {fields : List String} {parts : List Value}
    (h : List.Forall₂ (fun f v => pinned predicate.equalityConstraints f = some v) fields parts)
    {rec : Record} (hm : predicate.matches' rec = true) :
    ∃ vs, filedValues rec fields = some vs ∧ Value.cmpList vs parts = .eq := by
  induction h with
  | nil => exact ⟨[], rfl, rfl⟩
  | cons hv _ ih =>
    obtain ⟨k, hk, hcmp⟩ := filed_of_pinned hv hm
    obtain ⟨vs, hvs, hcmps⟩ := ih
    refine ⟨k :: vs, ?_, ?_⟩
    · rw [filedValues, hk, hvs]
      rfl
    · rw [Value.cmpList, hcmp, hcmps]
      rfl

/-! ## Finding the index -/

theorem lookupIndex_spec {name : String} {i : Index}
    (h : src.lookupIndex collection name = some i) :
    i ∈ src.indexList collection ∧ i.field = name := by
  rw [QuerySource.lookupIndex] at h
  have hmem : i ∈ (src.indexList collection).filter fun i => i.field = name := by
    rcases Option.or_eq_some_iff.mp h with h | ⟨-, h⟩
    · exact List.mem_of_find?_eq_some h
    · exact List.mem_of_mem_head? h
  simpa using hmem

theorem rangeIndex_spec {name : String} {i : Index}
    (h : src.rangeIndex collection name = some i) :
    i ∈ src.indexList collection ∧ i.field = name ∧ i.kind.supportsRange = true := by
  have hp := List.find?_some h
  rw [Bool.and_eq_true, decide_eq_true_eq] at hp
  exact ⟨List.mem_of_find?_eq_some h, hp⟩

theorem compositeIndex_spec {fields : List String} {i : Index}
    (h : src.compositeIndex collection fields = some i) :
    i ∈ src.indexList collection ∧ i.field = compositeName fields := by
  have hp := List.find?_some (p := fun i : Index => i.field = compositeName fields) h
  rw [decide_eq_true_eq] at hp
  exact ⟨List.mem_of_find?_eq_some h, hp⟩

theorem coversAll_spec {i : Index} {field : String} {needed : List String}
    (h : QuerySource.coversAll i field needed = true) :
    i.covers ≠ [] ∧ coveringBase i.field = field ∧ ∀ f ∈ needed, f ∈ i.covers := by
  rw [QuerySource.coversAll, Bool.and_eq_true, Bool.and_eq_true, List.all_eq_true] at h
  obtain ⟨⟨hne, hb⟩, hall⟩ := h
  refine ⟨by simpa using hne, by simpa using hb, fun f hf => by simpa using hall f hf⟩

theorem coveringIndex_spec {field : String} {needed : List String} {i : Index}
    (h : src.coveringIndex collection field needed = some i) :
    i ∈ src.indexList collection ∧ QuerySource.coversAll i field needed = true :=
  ⟨List.mem_of_find?_eq_some h,
    List.find?_some (p := fun i => QuerySource.coversAll i field needed) h⟩

theorem coveringRangeIndex_spec {field : String} {needed : List String} {i : Index}
    (h : src.coveringRangeIndex collection field needed = some i) :
    i ∈ src.indexList collection ∧ i.kind.supportsRange = true ∧
      QuerySource.coversAll i field needed = true := by
  have hp := List.find?_some h
  rw [Bool.and_eq_true] at hp
  exact ⟨List.mem_of_find?_eq_some h, hp⟩

/-! ## When an access path serves a filter -/

/-- The index that answers to the name files under the field that is pinned, is
in order where it is asked, and admits every row the filter keeps. -/
def LookupServes (src : QuerySource) (records : OrdMap RecordId Record) (collection name : String)
    (predicate : Expr) (key : Value) : Prop :=
  ∀ i ∈ src.lookupIndex collection name, i.shape.base = some (partialBase name) ∧
    AskedInOrder i records [key] ∧ AdmitsKept i records predicate

def RangeServes (src : QuerySource) (records : OrdMap RecordId Record) (collection field : String)
    (predicate : Expr) (lo hi : Bound) : Prop :=
  ∀ i ∈ src.rangeIndex collection field, i.shape.base = some field ∧ crossing lo hi = none ∧
    AskedInOrder i records (lo.literals ++ hi.literals) ∧ AdmitsKept i records predicate

/-- Without a covering index that answers, the probe is of a plain one. -/
def CoveringServes (src : QuerySource) (records : OrdMap RecordId Record)
    (collection field : String) (needed : List String) (predicate : Expr) (key : Value) : Prop :=
  match src.coveringIndex collection field needed with
  | some i => i.shape.base = some field ∧ AskedInOrder i records [key]
  | none => partialBase field = field ∧ LookupServes src records collection field predicate key

/-- A covering index hands its rows up in key order, so their keys have to follow
their ids. -/
def CoveringRangeServes (src : QuerySource) (records : OrdMap RecordId Record)
    (collection field : String) (needed : List String) (predicate : Expr) (lo hi : Bound) : Prop :=
  match src.coveringRangeIndex collection field needed with
  | some i => i.shape.base = some field ∧ crossing lo hi = none ∧
      AskedInOrder i records (lo.literals ++ hi.literals) ∧
      i.KeysFollowIds records predicate.matches'
  | none => RangeServes src records collection field predicate lo hi

/-- The index that answers to the joined name is over the fields, and is in order
where it is asked. -/
def CompositeServes (src : QuerySource) (records : OrdMap RecordId Record) (collection : String)
    (fields : List String) (parts : List Value) : Prop :=
  ∀ i ∈ src.compositeIndex collection fields, i.shape = .composite fields ∧
    AskedInOrder i records [.list parts]

section Serves

variable (hs : src.Holds) (hc : src.store.get collection = some records)
include hs hc

theorem index_holds {i : Index} (h : i ∈ src.indexList collection) : i.Holds records := by
  obtain ⟨records', hr, hh⟩ := hs.indexes collection i h
  rw [hc] at hr
  cases hr
  exact hh

theorem lookup_serves {name : String} {key : Value}
    (hk : pinned predicate.equalityConstraints (partialBase name) = some key)
    (h : LookupServes src records collection name predicate key) :
    ∀ ids ∈ src.indexLookup collection name key, ∀ r ∈ kept records predicate, r.1 ∈ ids := by
  intro ids hids
  obtain ⟨i, hfound, rfl⟩ := Option.map_eq_some_iff.mp hids
  obtain ⟨hbase, ho, ha⟩ := h i hfound
  exact lookup_kept (index_holds hs hc (lookupIndex_spec hfound).1) hbase hk ho ha

theorem rowsOf_indexLookup {name : String} {kind : IndexKind} {key : Value}
    (hk : pinned predicate.equalityConstraints (partialBase name) = some key)
    (h : LookupServes src records collection name predicate key) :
    rowsOf src (.filter (.indexLookup collection name kind key) predicate) =
      .ok (kept records predicate) := by
  rw [rowsOf_filter, rowsOf, run]
  exact filter_fetchOrScan hc (lookup_serves hs hc hk h)

theorem range_serves {field : String} {lo hi : Bound}
    (hr : predicate.rangeConstraint field = some (lo, hi))
    (h : RangeServes src records collection field predicate lo hi) :
    ∃ found, src.indexRange collection field lo hi = .ok found ∧
      ∀ ids ∈ found, ∀ r ∈ kept records predicate, r.1 ∈ ids := by
  rw [QuerySource.indexRange]
  cases hfound : src.rangeIndex collection field with
  | none => exact ⟨none, rfl, nofun⟩
  | some i =>
    obtain ⟨hmem, -, hkind⟩ := rangeIndex_spec hfound
    obtain ⟨hbase, hcross, ho, ha⟩ := h i hfound
    refine ⟨_, Index.range_eq hkind hcross, ?_⟩
    rintro _ ⟨⟩
    exact range_kept (index_holds hs hc hmem) hbase hr ho ha

theorem rowsOf_indexRange {field : String} {lo hi : Bound}
    (hr : predicate.rangeConstraint field = some (lo, hi))
    (h : RangeServes src records collection field predicate lo hi) :
    rowsOf src (.filter (.indexRange collection field lo hi) predicate) =
      .ok (kept records predicate) := by
  obtain ⟨found, hfound, hkept⟩ := range_serves hs hc hr h
  rw [rowsOf_filter, rowsOf, run, hfound]
  exact filter_fetchOrScan hc hkept

theorem rowsOf_compositeLookup {fields : List String} {parts : List Value}
    (hk : pinnedAll predicate.equalityConstraints fields = some parts)
    (h : CompositeServes src records collection fields parts) :
    rowsOf src (.filter (.compositeLookup collection fields (.list parts)) predicate) =
      .ok (kept records predicate) := by
  rw [rowsOf_filter, rowsOf, run]
  apply filter_fetchOrScan hc
  intro ids hids r hr
  obtain ⟨i, hfound, rfl⟩ := Option.map_eq_some_iff.mp hids
  obtain ⟨hshape, ho⟩ := h i hfound
  obtain ⟨hrm, hm⟩ := mem_kept.mp hr
  obtain ⟨vs, hvs, hcmp⟩ := filed_of_pinnedAll (pinned_of_pinnedAll hk) hm
  have hkey : i.shape.key r.2 = some (.list vs) := by
    rw [hshape, IndexShape.key, IndexShape.keyFor, hvs]
    rfl
  have hh := index_holds hs hc (compositeIndex_spec hfound).1
  exact Index.lookup_complete hh ho hrm hkey (by rwa [Value.cmp])

/-! ## Rows that come out of a covering index -/

theorem projections_eq {i : Index} (hmem : i ∈ src.indexList collection) (hcov : i.covers ≠ [])
    {ids : List RecordId}
    (hids : ∀ id ∈ ids, ∃ r ∈ records.entries, r.1 = id ∧ (i.shape.key r.2).isSome) :
    QuerySource.projections i ids = projectRows i.covers
      (ids.filterMap fun id => (records.get id).map fun rec => (id, rec)) := by
  have hh := index_holds hs hc hmem
  induction ids with
  | nil => rfl
  | cons id ids ih =>
    obtain ⟨r, hr, rfl, hkey⟩ := hids id List.mem_cons_self
    have hrow := hh.rows r hr hcov hkey
    have hget := (OrdMap.mem_entries records r.1 r.2).mp hr
    have ih := ih fun id hid => hids id (List.mem_cons_of_mem _ hid)
    rw [QuerySource.projections, projectRows] at *
    rw [List.filterMap_cons, List.filterMap_cons, Index.covered, hrow, hget, ih]
    rfl

omit hs hc in
theorem filter_projectRows {fields : List String}
    (hfields : ∀ f ∈ predicate.referencedFields [], f ∈ fields) (rows : List Row) :
    (projectRows fields rows).filter (fun r => predicate.matches' r.2) =
      projectRows fields (rows.filter fun r => predicate.matches' r.2) := by
  rw [projectRows, projectRows, List.filter_map]
  congr 1
  apply List.filter_congr
  intro r _
  apply Expr.matches_agree
  intro f hfm
  rw [Record.get_project, if_pos (hfields f hfm)]

omit hs hc in
theorem projectRows_projectRows {needed covers : List String} (h : ∀ f ∈ needed, f ∈ covers)
    (rows : List Row) : projectRows needed (projectRows covers rows) = projectRows needed rows := by
  rw [projectRows, projectRows, projectRows, List.map_map]
  apply List.map_congr_left
  intro r _
  refine Prod.ext rfl (Record.project_congr fun f hfm => ?_)
  rw [Record.get_project, if_pos (h f hfm)]

omit hs hc in
theorem fetched_get {ids : List RecordId} {r : Row}
    (h : r ∈ ids.filterMap fun id => (records.get id).map fun rec => (id, rec)) :
    r ∈ records.entries ∧ r.1 ∈ ids := by
  obtain ⟨id, hid, hr⟩ := List.mem_filterMap.mp h
  obtain ⟨rec, hg, rfl⟩ := Option.map_eq_some_iff.mp hr
  exact ⟨(OrdMap.mem_entries records id rec).mpr hg, hid⟩

omit hs hc in
/-- Fetched in the order the ids come, the kept rows are those of the scan when
the ids of kept rows ascend. -/
theorem filter_fetched_ascending {ids : List RecordId}
    (hall : ∀ r ∈ kept records predicate, r.1 ∈ ids)
    (hasc : ids.Pairwise fun x y => ∀ r ∈ records.entries, ∀ s ∈ records.entries, r.1 = x →
      s.1 = y → predicate.matches' r.2 → predicate.matches' s.2 → x < y) :
    (ids.filterMap fun id => (records.get id).map fun rec => (id, rec)).filter
      (fun r => predicate.matches' r.2) = kept records predicate := by
  apply ascending_ext Prod.fst
  · rw [List.pairwise_filter]
    refine List.Pairwise.filterMap _ (fun a b hab x hx y hy => ?_) hasc
    obtain ⟨rx, hrx, rfl⟩ := Option.map_eq_some_iff.mp hx
    obtain ⟨ry, hry, rfl⟩ := Option.map_eq_some_iff.mp hy
    exact hab (a, rx) ((OrdMap.mem_entries _ _ _).mpr hrx) (b, ry)
      ((OrdMap.mem_entries _ _ _).mpr hry) rfl rfl
  · exact records.sorted.filter _
  · intro r
    rw [List.mem_filter, mem_kept]
    constructor
    · rintro ⟨hr, hm⟩
      exact ⟨(fetched_get hr).1, hm⟩
    · rintro ⟨hr, hm⟩
      refine ⟨List.mem_filterMap.mpr ⟨r.1, hall r (mem_kept.mpr ⟨hr, hm⟩), ?_⟩, hm⟩
      rw [(OrdMap.mem_entries records r.1 r.2).mp hr]
      rfl

theorem rowsOf_coveringLookup {field : String} {needed : List String} {key : Value}
    (hk : pinned predicate.equalityConstraints field = some key)
    (hn : ∀ f ∈ predicate.referencedFields [], f ∈ needed)
    (h : CoveringServes src records collection field needed predicate key) :
    projectRows needed <$> rowsOf src (.filter (.coveringLookup collection field key needed) predicate) =
      .ok (projectRows needed (kept records predicate)) := by
  rw [rowsOf_filter, rowsOf, run, QuerySource.coveringLookup]
  rw [CoveringServes] at h
  cases hfound : src.coveringIndex collection field needed with
  | none =>
    rw [hfound] at h
    obtain ⟨hname, h⟩ := h
    have hserve := lookup_serves hs hc (hname.symm ▸ hk) h
    exact congrArg (projectRows needed <$> ·) (filter_fetchOrScan hc hserve)
  | some i =>
    rw [hfound] at h
    obtain ⟨hbase, ho⟩ := h
    obtain ⟨hmem, hcover⟩ := coveringIndex_spec hfound
    obtain ⟨hne, -, hall⟩ := coversAll_spec hcover
    have hh := index_holds hs hc hmem
    have hids := lookup_kept hh hbase hk ho fun r _ _ => IndexShape.admits_of_covers hne r.2
    have hsound : ∀ id ∈ i.lookup key, _ := fun id hid => Index.lookup_sound hh hid
    have hrows := projections_eq hs hc hmem hne hsound
    have hkept := filter_fetched_ascending hids
      ((Index.lookup_ascending hh key).imp fun hxy _ _ _ _ _ _ _ _ => hxy)
    simp only [Option.map_some]
    refine congrArg Except.ok ?_
    rw [flatten_batchesOf, hrows, filter_projectRows (fun f hfm => hall f (hn f hfm)),
      projectRows_projectRows hall, hkept]

theorem rowsOf_coveringRange {field : String} {needed : List String} {lo hi : Bound}
    (hr : predicate.rangeConstraint field = some (lo, hi))
    (hn : ∀ f ∈ predicate.referencedFields [], f ∈ needed)
    (h : CoveringRangeServes src records collection field needed predicate lo hi) :
    projectRows needed <$>
        rowsOf src (.filter (.coveringRange collection field needed lo hi) predicate) =
      .ok (projectRows needed (kept records predicate)) := by
  rw [rowsOf_filter, rowsOf, run, QuerySource.coveringRange]
  rw [CoveringRangeServes] at h
  cases hfound : src.coveringRangeIndex collection field needed with
  | none =>
    rw [hfound] at h
    obtain ⟨found, hrange, hserve⟩ := range_serves hs hc hr h
    have hrows := filter_fetchOrScan hc hserve
    simp only [ok_bind, hrange]
    exact congrArg (projectRows needed <$> ·) hrows
  | some i =>
    rw [hfound] at h
    obtain ⟨hbase, hcross, ho, hfollow⟩ := h
    obtain ⟨hmem, hkind, hcover⟩ := coveringRangeIndex_spec hfound
    obtain ⟨hne, -, hall⟩ := coversAll_spec hcover
    have hh := index_holds hs hc hmem
    have hids := range_kept hh hbase hr ho fun r _ _ => IndexShape.admits_of_covers hne r.2
    have hsound : ∀ id ∈ i.rangeIds lo hi, _ := fun id hid => Index.range_sound hh hid
    have hrows := projections_eq hs hc hmem hne hsound
    have hkept := filter_fetched_ascending hids
      (Index.rangeIds_ascending hh (of_decide_eq_true hkind) ho hfollow)
    simp only [Index.range_eq hkind hcross, ok_bind]
    refine congrArg Except.ok ?_
    rw [flatten_batchesOf, hrows, filter_projectRows (fun f hfm => hall f (hn f hfm)),
      projectRows_projectRows hall, hkept]

end Serves

/-! ## Names without separators

Where no name holds a separator, the index that answers to a name is on the
field that was asked for. -/

/-- No name of an index of the collection holds a separator. -/
def PlainIndexes (src : QuerySource) (collection : String) : Prop :=
  ∀ i ∈ src.indexList collection, i.shape.Plain

section Plain

variable (hi : PlainIndexes src collection)
include hi

theorem plain_lookup {name : String} (hn : Plain (partialBase name)) :
    ∀ i ∈ src.lookupIndex collection name, i.shape.base = some (partialBase name) := by
  intro i hfound
  obtain ⟨hmem, rfl⟩ := lookupIndex_spec hfound
  exact base_of_partialBase (hi i hmem) hn

theorem plain_range {field : String} (hf : Plain field) :
    ∀ i ∈ src.rangeIndex collection field, i.shape.base = some field := by
  intro i hfound
  obtain ⟨hmem, rfl, -⟩ := rangeIndex_spec hfound
  exact base_of_field (hi i hmem) hf

theorem plain_covering {field : String} {needed : List String} :
    ∀ i ∈ src.coveringIndex collection field needed, i.shape.base = some field := by
  intro i hfound
  obtain ⟨hmem, hcover⟩ := coveringIndex_spec hfound
  obtain ⟨hne, rfl, -⟩ := coversAll_spec hcover
  exact base_of_covers (hi i hmem) hne

theorem plain_composite {fields : List String} (hlen : 2 ≤ fields.length)
    (hf : ∀ f ∈ fields, Plain f) :
    ∀ i ∈ src.compositeIndex collection fields, i.shape = .composite fields := by
  intro i hfound
  obtain ⟨hmem, hname⟩ := compositeIndex_spec hfound
  exact composite_of_field (hi i hmem) hlen hf hname

end Plain

end Adabt.Exec
