import Adabt.Exec.Answer

/-! # Planning preserves answers

When a decision serves a plan, the physical plan made of it hands up exactly the
rows that the plan asks for, in their order. -/

set_option autoImplicit false

namespace Adabt.Exec
open Adabt.Core Adabt.Ir Adabt.Indexing Adabt.Library

variable {src : QuerySource} {d : AccessDecision} {collection : String}
  {needed : Option (List String)}

/-! ## When a decision serves a plan -/

/-- What a decision requires of the index it names, for the filter that it is under. -/
def PathServes (src : QuerySource) (records : OrdMap RecordId Record) (collection : String)
    (predicate : Expr) : AccessDecision → Prop
  | .indexLookup name _ => ∀ key ∈ pinned predicate.equalityConstraints (partialBase name),
      LookupServes src records collection name predicate key
  | .coveringLookup field needed => ∀ key ∈ pinned predicate.equalityConstraints field,
      CoveringServes src records collection field needed predicate key
  | .compositeLookup fields => ∀ parts ∈ pinnedAll predicate.equalityConstraints fields,
      CompositeServes src records collection fields parts
  | .indexRange field => ∀ b ∈ predicate.rangeConstraint field,
      RangeServes src records collection field predicate b.1 b.2
  | .coveringRange field needed => ∀ b ∈ predicate.rangeConstraint field,
      CoveringRangeServes src records collection field needed predicate b.1 b.2
  | _ => True

/-- A scan, or a filter over one, that an aggregate may be pushed into. -/
def scanned : LogicalOp → Option (String × Option Expr)
  | .scan collection => some (collection, none)
  | .filter (.scan collection) predicate => some (collection, some predicate)
  | _ => none

/-- The columns aggregate as the records do wherever the plan asks them to. -/
def AggregatesServe (src : QuerySource) : LogicalOp → Prop
  | .aggregate input groupBy aggs => AggregatesServe src input ∧
      ∀ p ∈ scanned input, ∀ store ∈ src.columns.get p.1, ∀ records ∈ src.store.get p.1,
        store.Aggregates records groupBy aggs p.2
  | .filter input _ | .project input _ | .sort input _ | .limit input _ => AggregatesServe src input
  | _ => True

/-- The access path that a decision names does no harm to the plan. -/
def Serves (src : QuerySource) (logical : LogicalOp) : AccessDecision → Prop
  | .columnScan _ => AggregatesServe src logical
  | .columnarTopK key _ => ∀ records ∈ src.store.get logical.collection, KeysLinked records key
  | d => ∀ records ∈ src.store.get logical.collection, ∀ p ∈ filterDirectlyOverScan logical,
      PathServes src records logical.collection p d

/-! ## The leaves -/

/-- The fields that the rows of a decision are cut down to. -/
def AccessDecision.readsOnly : AccessDecision → Option (List String)
  | .columnScan fields => some fields
  | .coveringLookup _ needed | .coveringRange _ needed => some needed
  | _ => none

theorem answer_scan (src : QuerySource) (collection : String) :
    answer src (.scan collection) = List.flatten <$> scanBatches src collection := by
  cases hc : src.store.get collection with
  | none =>
    rw [scanBatches_unknown hc, answer, QuerySource.records, hc]
    rfl
  | some records =>
    rw [scanBatches_rows hc, answer, records_ok hc]
    rfl

theorem Alike.of_eq {x y : Result (List Row)} (h : x = y) : Alike needed x y :=
  congrArg (restrict needed <$> ·) h

section Held

variable (hs : src.Holds)
include hs

/-- A collection that does not exist has no index and no columns. -/
theorem indexList_unknown (hc : src.store.get collection = none) :
    src.indexList collection = [] := by
  rw [List.eq_nil_iff_forall_not_mem]
  intro i hi
  obtain ⟨records, hr, -⟩ := hs.indexes collection i hi
  rw [hc] at hr
  cases hr

theorem columns_unknown (hc : src.store.get collection = none) :
    src.columns.get collection = none := by
  cases hg : src.columns.get collection with
  | none => rfl
  | some store =>
    obtain ⟨records, hr, -⟩ := hs.columns collection store hg
    rw [hc] at hr
    cases hr

theorem rowsOf_columnScan (fields : List String) :
    Alike (some fields) (rowsOf src (.columnScan collection fields)) (answer src (.scan collection)) := by
  rw [rowsOf, run]
  cases hg : src.columns.get collection with
  | none =>
    have hscan : src.columnScan collection fields = none := by
      rw [QuerySource.columnScan, hg]
      rfl
    rw [hscan, answer_scan]
    rfl
  | some store =>
    obtain ⟨records, hc, hh⟩ := hs.columns collection store hg
    have hscan : src.columnScan collection fields = some (projectRows fields records.entries) := by
      rw [QuerySource.columnScan, hg, ← store.project_eq hh]
      rfl
    rw [hscan, answer_scan, scanBatches_rows hc]
    refine congrArg Except.ok ?_
    rw [flatten_batchesOf]
    exact projectRows_projectRows (fun f hf => hf) records.entries

/-- Without the collection every access path fails as a scan does. -/
theorem rowsOf_path_unknown (hc : src.store.get collection = none) (predicate : Expr)
    (d : AccessDecision) :
    rowsOf src ((accessPath collection predicate d).getD (scanPath collection d)) =
      answer src (.scan collection) := by
  have hlist := indexList_unknown hs hc
  have hscan : List.flatten <$> fetchOrScan src collection none = answer src (.scan collection) := by
    rw [answer_scan]
    rfl
  have hheap : rowsOf src (.heapScan collection) = answer src (.scan collection) := hscan
  cases d with
  | columnScan fields =>
    have hnone : src.columnScan collection fields = none := by
      rw [QuerySource.columnScan, columns_unknown hs hc]
      rfl
    have hpath : (accessPath collection predicate (.columnScan fields)).getD
        (scanPath collection (.columnScan fields)) = .columnScan collection fields := rfl
    rw [hpath, rowsOf, run, hnone]
    exact hscan
  | indexLookup field kind =>
    rw [accessPath]
    cases pinned predicate.equalityConstraints (partialBase field) with
    | none => exact hheap
    | some key =>
      rw [Option.map_some, Option.getD_some, rowsOf, run, QuerySource.indexLookup,
        QuerySource.lookupIndex, hlist]
      exact hscan
  | coveringLookup field needed =>
    rw [accessPath]
    cases pinned predicate.equalityConstraints field with
    | none => exact hheap
    | some key =>
      rw [Option.map_some, Option.getD_some, rowsOf, run, QuerySource.coveringLookup,
        QuerySource.coveringIndex, QuerySource.indexLookup, QuerySource.lookupIndex, hlist]
      exact hscan
  | compositeLookup fields =>
    rw [accessPath]
    cases pinnedAll predicate.equalityConstraints fields with
    | none => exact hheap
    | some parts =>
      rw [Option.map_some, Option.getD_some, rowsOf, run, QuerySource.compositeLookup,
        QuerySource.compositeIndex, hlist]
      exact hscan
  | indexRange field =>
    rw [accessPath]
    cases predicate.rangeConstraint field with
    | none => exact hheap
    | some b =>
      rw [Option.map_some, Option.getD_some, rowsOf, run, QuerySource.indexRange,
        QuerySource.rangeIndex, hlist]
      exact hscan
  | coveringRange field needed =>
    rw [accessPath]
    cases predicate.rangeConstraint field with
    | none => exact hheap
    | some b =>
      rw [Option.map_some, Option.getD_some, rowsOf, run, QuerySource.coveringRange,
        QuerySource.coveringRangeIndex, QuerySource.indexRange, QuerySource.rangeIndex, hlist]
      exact hscan
  | byId | byIds | fullScan | columnarTopK key descending => exact hheap

theorem builtRows_scan (hf : ∀ fields ∈ d.readsOnly, needed = some fields) :
    Alike needed (builtRows src d (.scan collection)) (answer src (.scan collection)) := by
  have hheap : rowsOf src (.heapScan collection) = answer src (.scan collection) :=
    (answer_scan src collection).symm
  cases d with
  | columnScan fields =>
    rw [hf fields rfl]
    exact rowsOf_columnScan hs fields
  | _ => exact .of_eq hheap

/-- Under its filter, an access path that serves hands up what the scan does. -/
theorem rowsOf_path {records : OrdMap RecordId Record} {predicate : Expr}
    (hc : src.store.get collection = some records)
    (hn : Among (predicate.referencedFields []) needed)
    (hf : ∀ fields ∈ d.readsOnly, needed = some fields)
    (h : PathServes src records collection predicate d) :
    Alike needed
      (rowsOf src (.filter ((accessPath collection predicate d).getD (scanPath collection d)) predicate))
      (.ok (kept records predicate)) := by
  have hanswer : answer src (.scan collection) = .ok records.entries := by
    rw [answer_scan, scanBatches_rows hc]
  have hheap : rowsOf src (.filter (.heapScan collection) predicate) = .ok (kept records predicate) :=
    rowsOf_filter_heapScan hc predicate
  cases d with
  | columnScan fields =>
    have hread : Among (predicate.referencedFields []) (some fields) := hf fields rfl ▸ hn
    have hscan : Alike (some fields) _ (_ <$> answer src (.scan collection)) :=
      (rowsOf_columnScan hs fields).map (restrict_filter hread)
    rw [← rowsOf_filter, hanswer] at hscan
    rw [hf fields rfl]
    exact hscan
  | indexLookup field kind =>
    rw [accessPath]
    cases hk : pinned predicate.equalityConstraints (partialBase field) with
    | none => exact .of_eq hheap
    | some key => exact .of_eq (rowsOf_indexLookup hs hc hk (h key hk))
  | coveringLookup field fields =>
    rw [accessPath]
    cases hk : pinned predicate.equalityConstraints field with
    | none => exact .of_eq hheap
    | some key =>
      rw [hf fields rfl] at hn ⊢
      exact rowsOf_coveringLookup hs hc hk (hn fields rfl) (h key hk)
  | compositeLookup fields =>
    rw [accessPath]
    cases hk : pinnedAll predicate.equalityConstraints fields with
    | none => exact .of_eq hheap
    | some parts => exact .of_eq (rowsOf_compositeLookup hs hc hk (h parts hk))
  | indexRange field =>
    rw [accessPath]
    cases hk : predicate.rangeConstraint field with
    | none => exact .of_eq hheap
    | some b => exact .of_eq (rowsOf_indexRange hs hc hk (h b hk))
  | coveringRange field fields =>
    rw [accessPath]
    cases hk : predicate.rangeConstraint field with
    | none => exact .of_eq hheap
    | some b =>
      rw [hf fields rfl] at hn ⊢
      exact rowsOf_coveringRange hs hc hk (hn fields rfl) (h b hk)
  | byId | byIds | fullScan | columnarTopK key descending => exact .of_eq hheap

theorem builtRows_filter_scan {predicate : Expr}
    (hn : Among (predicate.referencedFields []) needed)
    (hf : ∀ fields ∈ d.readsOnly, needed = some fields)
    (h : ∀ records ∈ src.store.get collection, PathServes src records collection predicate d) :
    Alike needed (builtRows src d (.filter (.scan collection) predicate))
      (answer src (.filter (.scan collection) predicate)) := by
  have hbuilt : builtRows src d (.filter (.scan collection) predicate) =
      rowsOf src (.filter ((accessPath collection predicate d).getD (scanPath collection d))
        predicate) := rfl
  rw [hbuilt, answer]
  cases hc : src.store.get collection with
  | none => exact .of_eq (by rw [rowsOf_filter, rowsOf_path_unknown hs hc])
  | some records =>
    rw [answer_scan, scanBatches_rows hc]
    exact rowsOf_path hs hc hn hf (h records hc)

end Held

/-! ## Aggregates -/

theorem buildNode_filter {input : LogicalOp} (h : ¬ IsScan input) (predicate : Expr) :
    buildNode d (.filter input predicate) = (.filter · predicate) <$> buildNode d input := by
  cases input with
  | scan collection => exact absurd ⟨collection, rfl⟩ h
  | _ => rfl

theorem buildNode_limit {input : LogicalOp} {n : UInt64} {op : PhysicalOp}
    (h : buildNode d (.limit input n) = .ok op) :
    (∃ op' m, op = .limit op' m) ∨ ∃ c key descending k, op = .columnarTopK c key descending k := by
  cases d with
  | columnarTopK key descending =>
    rw [buildNode] at h
    cases input with
    | sort input keys =>
      cases input <;> cases h
      exact .inr ⟨_, _, _, _, rfl⟩
    | _ => cases h
  | _ =>
    obtain ⟨op', -, hop⟩ := map_eq_ok.mp h
    exact .inl ⟨op', _, hop.symm⟩

theorem columnScan_path {predicate : Expr} {c : String} {fields : List String}
    (h : (accessPath collection predicate d).getD (scanPath collection d) = .columnScan c fields) :
    c = collection ∧ ∃ fields, d = .columnScan fields := by
  cases d with
  | columnScan names =>
    cases h
    exact ⟨rfl, fields, rfl⟩
  | indexLookup field kind =>
    rw [accessPath] at h
    cases hk : pinned predicate.equalityConstraints (partialBase field) <;> rw [hk] at h <;> cases h
  | coveringLookup field needed =>
    rw [accessPath] at h
    cases hk : pinned predicate.equalityConstraints field <;> rw [hk] at h <;> cases h
  | compositeLookup names =>
    rw [accessPath] at h
    cases hk : pinnedAll predicate.equalityConstraints names <;> rw [hk] at h <;> cases h
  | indexRange field | coveringRange field _ =>
    rw [accessPath] at h
    cases hk : predicate.rangeConstraint field <;> rw [hk] at h <;> cases h
  | _ => cases h

theorem scan_of_columnScan {op : LogicalOp} {c : String} {fields : List String}
    (h : buildNode d op = .ok (.columnScan c fields)) :
    op = .scan c ∧ ∃ fields, d = .columnScan fields := by
  cases op with
  | scan collection =>
    cases d <;> cases h
    exact ⟨rfl, fields, rfl⟩
  | filter input predicate =>
    by_cases hscan : IsScan input
    · obtain ⟨collection, rfl⟩ := hscan
      cases h
    · rw [buildNode_filter hscan] at h
      obtain ⟨op, -, hop⟩ := map_eq_ok.mp h
      cases hop
  | limit input n => rcases buildNode_limit h with ⟨_, _, hop⟩ | ⟨_, _, _, _, hop⟩ <;> cases hop
  | project _ _ | sort _ _ | aggregate _ _ _ =>
    obtain ⟨op, -, hop⟩ := map_eq_ok.mp h
    cases hop
  | getById _ _ | getByIds _ _ | join _ _ _ _ => cases h

theorem filter_of_filter {input : LogicalOp} {predicate : Expr} {c : String}
    {fields : List String} (h : buildNode d input = .ok (.filter (.columnScan c fields) predicate)) :
    input = .filter (.scan c) predicate ∧ ∃ fields, d = .columnScan fields := by
  cases input with
  | filter input q =>
    by_cases hscan : IsScan input
    · obtain ⟨collection, rfl⟩ := hscan
      rw [buildNode] at h
      injection h with h
      injection h with hpath hq
      obtain ⟨rfl, hd⟩ := columnScan_path hpath
      exact ⟨by rw [hq], hd⟩
    · rw [buildNode_filter hscan] at h
      obtain ⟨op, hbuilt, hop⟩ := map_eq_ok.mp h
      cases hop
      obtain ⟨rfl, hd⟩ := scan_of_columnScan hbuilt
      exact ⟨rfl, hd⟩
  | limit input n => rcases buildNode_limit h with ⟨_, _, hop⟩ | ⟨_, _, _, _, hop⟩ <;> cases hop
  | project _ _ | sort _ _ | aggregate _ _ _ =>
    obtain ⟨op, -, hop⟩ := map_eq_ok.mp h
    cases hop
  | scan _ => cases d <;> cases h
  | getById _ _ | getByIds _ _ | join _ _ _ _ => cases h

/-- An aggregate is pushed into the columns over a columnar scan, or one filter over it. -/
theorem scanned_of_columnarInput {input : LogicalOp} {op : PhysicalOp} {p : String × Option Expr}
    (h : buildNode d input = .ok op) (hp : op.columnarInput = some p) :
    scanned input = some p ∧ ∃ fields, d = .columnScan fields := by
  cases op with
  | columnScan c fields =>
    cases hp
    obtain ⟨rfl, hd⟩ := scan_of_columnScan h
    exact ⟨rfl, hd⟩
  | filter op predicate =>
    cases op with
    | columnScan c fields =>
      cases hp
      obtain ⟨rfl, hd⟩ := filter_of_filter h
      exact ⟨rfl, hd⟩
    | _ => cases hp
  | _ => cases hp

theorem answer_scanned {input : LogicalOp} {c : String} {predicate : Option Expr}
    (h : scanned input = some (c, predicate)) {records : OrdMap RecordId Record}
    (hc : src.store.get c = some records) :
    answer src input = .ok (records.entries.filter fun r => keeps predicate r.2) := by
  have hscan : answer src (.scan c) = .ok records.entries := by
    rw [answer_scan, scanBatches_rows hc]
  cases input with
  | scan collection =>
    cases h
    rw [hscan]
    exact congrArg Except.ok (List.filter_eq_self.mpr fun _ _ => rfl).symm
  | filter input q =>
    cases input with
    | scan collection =>
      cases h
      rw [answer, hscan]
      rfl
    | _ => cases h
  | _ => cases h

theorem builtRows_aggregate (hs : src.Holds) {input : LogicalOp} {groupBy : List String}
    {aggs : List Agg} (ha : Alike needed (builtRows src d input) (answer src input))
    (hn : Among (groupBy ++ Agg.fields aggs) needed)
    (hserve : (∃ fields, d = .columnScan fields) → ∀ p ∈ scanned input,
      ∀ store ∈ src.columns.get p.1, ∀ records ∈ src.store.get p.1,
        store.Aggregates records groupBy aggs p.2) :
    builtRows src d (.aggregate input groupBy aggs) = answer src (.aggregate input groupBy aggs) := by
  have hrows : (fun rows => aggregate rows groupBy aggs) <$> builtRows src d input =
      answer src (.aggregate input groupBy aggs) := ha.map_eq (aggregate_restrict hn)
  rw [← hrows, builtRows, builtRows, buildNode]
  cases hbuilt : buildNode d input with
  | error e => rfl
  | ok op =>
    have hop : rowsOf src (.aggregate op groupBy aggs) =
        (fun rows => aggregate rows groupBy aggs) <$> rowsOf src op := by
      cases hcol : op.columnarInput.bind fun p => src.columnAggregate p.1 groupBy aggs p.2 with
      | none => exact rowsOf_aggregate hcol
      | some rows =>
        obtain ⟨⟨c, predicate⟩, hp, hagg⟩ := Option.bind_eq_some_iff.mp hcol
        obtain ⟨hscanned, hd⟩ := scanned_of_columnarInput hbuilt hp
        obtain ⟨store, hg, -⟩ := Option.bind_eq_some_iff.mp hagg
        obtain ⟨records, hc, hh⟩ := hs.columns c store hg
        have heq := columnAggregate_eq hg hh (hserve hd _ hscanned store hg records hc)
        have hbuiltRows : builtRows src d input = rowsOf src op := by
          rw [builtRows, hbuilt]
          rfl
        rw [hbuiltRows] at hrows
        rw [rowsOf_aggregate_columns hcol, hrows, answer, answer_scanned hscanned hc]
        rw [hagg] at heq
        exact congrArg Except.ok (Option.some.inj heq)
    exact hop

/-! ## Plans -/

/-- What is served of a plan is served of what it is made of. -/
theorem Serves.of_input {op input : LogicalOp} (h : Serves src op d)
    (hcol : op.collection = input.collection)
    (hagg : AggregatesServe src op → AggregatesServe src input)
    (hfilter : filterDirectlyOverScan op = filterDirectlyOverScan input) : Serves src input d := by
  cases d with
  | columnScan fields => exact hagg h
  | columnarTopK key descending => exact fun records hr => h records (hcol ▸ hr)
  | _ => exact fun records hr p hp => hcol ▸ h records (hcol ▸ hr) p (hfilter ▸ hp)

theorem Among.mono {small large : List String} (h : Among large needed) (hs : small ⊆ large) :
    Among small needed := fun n hn f hf => h n hn f (hs hf)

theorem requiredBelow_subset (out : List String) {op : LogicalOp} (hj : op.containsJoin = false) :
    out ⊆ op.requiredBelow out := by
  induction op generalizing out with
  | getById _ _ | getByIds _ _ | scan _ => exact List.Subset.refl _
  | filter input predicate ih =>
    exact List.Subset.trans (predicate.subset_referencedFields out) (ih _ hj)
  | sort input keys ih => exact List.Subset.trans (List.subset_append_left _ _) (ih _ hj)
  | limit input n ih => exact ih _ hj
  | project input fields ih => exact List.Subset.trans (List.subset_append_left _ _) (ih _ hj)
  | aggregate input groupBy aggs ih => exact List.Subset.trans (by simp) (ih _ hj)
  | join _ _ _ _ => cases hj

theorem Serves.path {predicate : Expr}
    (h : Serves src (.filter (.scan collection) predicate) d) :
    ∀ records ∈ src.store.get collection, PathServes src records collection predicate d := by
  intro records hr
  cases d with
  | columnScan _ | columnarTopK _ _ => trivial
  | _ => exact h records hr predicate rfl

theorem Serves.aggregates {input : LogicalOp} {groupBy : List String} {aggs : List Agg}
    (h : Serves src (.aggregate input groupBy aggs) d) :
    (∃ fields, d = .columnScan fields) → ∀ p ∈ scanned input,
      ∀ store ∈ src.columns.get p.1, ∀ records ∈ src.store.get p.1,
        store.Aggregates records groupBy aggs p.2 := by
  rintro ⟨fields, rfl⟩
  exact h.2

theorem filterDirectly_input {input : LogicalOp} (h : ¬ IsScan input) (predicate : Expr) :
    filterDirectlyOverScan (.filter input predicate) = filterDirectlyOverScan input := by
  cases input with
  | scan collection => exact absurd ⟨collection, rfl⟩ h
  | _ => rfl

theorem rowsOf_getById (src : QuerySource) (collection : String) (id : RecordId) :
    rowsOf src (.getById collection id) = answer src (.getById collection id) := by
  rw [rowsOf, run, answer]
  cases src.fetch collection id with
  | error e => rfl
  | ok found => cases found <;> rfl

theorem fetchRows_unknown (hc : src.store.get collection = none) {ids : List RecordId}
    (h : ids ≠ []) : fetchRows src collection ids = .error (.error (.noSuchCollection collection)) := by
  cases ids with
  | nil => exact absurd rfl h
  | cons id ids =>
    rw [fetchRows, QuerySource.fetch, QuerySource.records, hc]
    rfl

theorem rowsOf_getByIds (src : QuerySource) (collection : String) (ids : List RecordId) :
    rowsOf src (.getByIds collection ids) = answer src (.getByIds collection ids) := by
  rw [rowsOf, run, answer]
  cases ids with
  | nil => rfl
  | cons id ids =>
    cases hc : src.store.get collection with
    | none =>
      have hne : ascend (id :: ids) ≠ [] :=
        List.ne_nil_of_mem (mem_ascend.mpr List.mem_cons_self)
      rw [fetchBatches, fetchRows_unknown hc hne, QuerySource.records, hc]
      rfl
    | some records =>
      rw [fetchBatches_rows hc, records_ok hc]
      rfl

/-- Beneath a projection or an aggregate, rows agree on the fields that are read. -/
theorem builtRows_alike (hs : src.Holds) (hd : ∀ key descending, d ≠ .columnarTopK key descending)
    (hf : ∀ fields ∈ d.readsOnly, needed = some fields) {op : LogicalOp}
    (hj : op.containsJoin = false) {out : List String} (hn : Among (op.requiredBelow out) needed)
    (h : Serves src op d) : Alike needed (builtRows src d op) (answer src op) := by
  induction op generalizing out with
  | getById collection id => exact .of_eq (rowsOf_getById src collection id)
  | getByIds collection ids => exact .of_eq (rowsOf_getByIds src collection ids)
  | scan collection => exact builtRows_scan hs hf
  | filter input predicate ih =>
    have hp : Among (predicate.referencedFields []) needed := hn.mono
      (List.Subset.trans (Expr.referencedFields_mono (List.nil_subset out) predicate)
        (requiredBelow_subset _ hj))
    by_cases hscan : IsScan input
    · obtain ⟨collection, rfl⟩ := hscan
      exact builtRows_filter_scan hs hp hf h.path
    · have hinput := ih hj hn (h.of_input rfl id (filterDirectly_input hscan predicate))
      rw [builtRows_filter hscan, answer]
      exact hinput.map (restrict_filter hp)
  | project input fields ih =>
    have hinput := ih hj hn (h.of_input rfl id rfl)
    have hp : Among fields needed := hn.mono
      (List.Subset.trans (List.subset_append_right _ _) (requiredBelow_subset _ hj))
    rw [builtRows_project, answer]
    exact .of_eq (hinput.map_eq (project_restrict hp))
  | sort input keys ih =>
    have hinput := ih hj hn (h.of_input rfl id rfl)
    have hk : Among (keys.map (·.field)) needed := hn.mono
      (List.Subset.trans (List.subset_append_right _ _) (requiredBelow_subset _ hj))
    rw [builtRows_sort, answer]
    exact hinput.map (restrict_sort hk)
  | limit input n ih =>
    have hinput := ih hj hn (h.of_input rfl id rfl)
    rw [builtRows_limit hd, answer]
    exact hinput.map (restrict_take n.toNat)
  | aggregate input groupBy aggs ih =>
    have hinput := ih hj hn (h.of_input rfl (·.1) rfl)
    have hread : groupBy ++ Agg.fields aggs ⊆ out ++ groupBy ++ Agg.fields aggs := by
      rw [List.append_assoc]
      exact List.subset_append_right _ _
    have ha : Among (groupBy ++ Agg.fields aggs) needed := hn.mono
      (List.Subset.trans hread (requiredBelow_subset _ hj))
    exact .of_eq (builtRows_aggregate hs hinput ha h.aggregates)
  | join _ _ _ _ => cases hj

/-- A plan whose root bounds the fields that are read hands up the answer itself. -/
theorem builtRows_bounded (hs : src.Holds) (hd : ∀ key descending, d ≠ .columnarTopK key descending)
    (hf : ∀ fields ∈ d.readsOnly, needed = some fields) {op : LogicalOp}
    (hj : op.containsJoin = false) {out fields : List String}
    (ho : op.collectRequired out = some fields) (hn : Among fields needed)
    (h : Serves src op d) : builtRows src d op = answer src op := by
  induction op generalizing out with
  | project input names =>
    cases ho
    have hbelow : Among (input.requiredBelow []) needed := hn.mono (List.subset_append_right _ _)
    have hinput : Alike needed (builtRows src d input) (answer src input) :=
      builtRows_alike hs hd hf hj hbelow (h.of_input rfl id rfl)
    rw [builtRows_project, answer]
    apply hinput.map_eq (project_restrict (hn.mono _))
    rw [List.append_assoc]
    exact List.Subset.trans (List.subset_append_left _ _) (List.subset_append_right _ _)
  | aggregate input groupBy aggs =>
    cases ho
    have hbelow : Among (input.requiredBelow []) needed := hn.mono (List.subset_append_right _ _)
    have hinput : Alike needed (builtRows src d input) (answer src input) :=
      builtRows_alike hs hd hf hj hbelow (h.of_input rfl (·.1) rfl)
    refine builtRows_aggregate hs hinput (hn.mono ?_) h.aggregates
    simp only [List.append_assoc]
    exact List.Subset.trans (by simp) (List.subset_append_right _ _)
  | limit input n ih =>
    rw [builtRows_limit hd, answer, ih hj ho (h.of_input rfl id rfl)]
  | sort input keys ih =>
    rw [builtRows_sort, answer, ih hj ho (h.of_input rfl id rfl)]
  | _ => cases ho

/-- A top-K decision is made over a limit over a sort over a scan, beneath projections. -/
theorem builtRows_topK (hs : src.Holds) {op : LogicalOp} {key : String} {descending : Bool} {k : ℕ}
    (ht : topkOverScan op = some (collection, key, descending, k))
    (hl : ∀ records ∈ src.store.get collection, KeysLinked records key) :
    builtRows src (.columnarTopK key descending) op = answer src op := by
  induction op with
  | project input fields ih => rw [builtRows_project, answer, ih ht]
  | limit input n =>
    obtain ⟨c, sortKey, rfl⟩ : ∃ c sortKey, input = .sort (.scan c) [sortKey] := by
      match input, ht with
      | .sort (.scan c) [sortKey], _ => exact ⟨c, sortKey, rfl⟩
    cases ht
    have hbuilt : builtRows src (.columnarTopK sortKey.field sortKey.descending)
        (.limit (.sort (.scan collection) [sortKey]) n) =
          rowsOf src (.columnarTopK collection sortKey.field sortKey.descending n.toNat) := rfl
    rw [hbuilt, answer, answer, answer_scan]
    cases hc : src.store.get collection with
    | none =>
      have htop : src.columnTopk collection sortKey.field sortKey.descending n.toNat = none := by
        rw [QuerySource.columnTopk, columns_unknown hs hc]
        rfl
      have hscan : src.columnScan collection [sortKey.field] = none := by
        rw [QuerySource.columnScan, columns_unknown hs hc]
        rfl
      rw [rowsOf, run, runTopK, htop, hscan, scanBatches_unknown hc]
      rfl
    | some records =>
      rw [rowsOf_columnarTopK hs hc (hl records hc), scanBatches_rows hc]
      rfl
  | _ => cases ht

end Adabt.Exec
