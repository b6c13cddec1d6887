import Adabt.Exec.Preserve

/-! # What a planned query returns

The decision made for a plan reads the fields the plan requires, and a top-K
decision is made over a top-K plan. So a query planned with indexes and columns
returns what it returns without any, whenever its decision serves it. -/

set_option autoImplicit false

namespace Adabt.Exec
open Adabt.Core Adabt.Ir Adabt.Indexing Adabt.Library

variable {ctx : PlanContext} {collection : String} {needed : Option (List String)}
  {logical : LogicalOp}

/-- A decision is not for a top-K, and cuts rows down to the needed fields at most. -/
structure AccessDecision.Reads (needed : Option (List String)) (d : AccessDecision) : Prop where
  notTopK : ∀ key descending, d ≠ .columnarTopK key descending
  fields : ∀ fields ∈ d.readsOnly, needed = some fields

theorem decideCovering_reads {predicate : Expr} {d : PlanDecision}
    (h : decideCovering ctx collection needed predicate = some d) : d.access.Reads needed := by
  rw [decideCovering] at h
  cases hc : ctx.coveringFor collection predicate.equalityConstraints needed with
  | some found =>
    rw [hc] at h
    cases h
    obtain ⟨names, rfl, hfound⟩ := Option.bind_eq_some_iff.mp hc
    obtain ⟨c, -, hfound⟩ := Option.bind_eq_some_iff.mp hfound
    cases hfound
    exact ⟨nofun, fun fields hf => congrArg some (Option.some.inj hf)⟩
  | none =>
    rw [hc] at h
    obtain ⟨field, hr, rfl⟩ := Option.map_eq_some_iff.mp h
    obtain ⟨names, rfl, -⟩ := Option.bind_eq_some_iff.mp hr
    exact ⟨nofun, fun fields hf => congrArg some (Option.some.inj hf)⟩

theorem decideIndex_reads {predicate : Expr} {d : PlanDecision}
    (h : decideIndex ctx collection predicate = some d) : d.access.Reads needed := by
  rw [decideIndex] at h
  cases hc : ctx.compositeFor collection predicate.equalityConstraints with
  | some fields =>
    rw [hc] at h
    cases h
    exact ⟨nofun, nofun⟩
  | none =>
    rw [hc] at h
    rcases Option.or_eq_some_iff.mp h with h | ⟨-, h⟩
    · obtain ⟨best, -, h⟩ := Option.bind_eq_some_iff.mp h
      split_ifs at h
      cases hp : ctx.partialFor collection best.2 predicate with
      | some found =>
        rw [hp] at h
        cases h
        exact ⟨nofun, nofun⟩
      | none =>
        rw [hp] at h
        obtain ⟨kind, -, rfl⟩ := Option.map_eq_some_iff.mp h
        exact ⟨nofun, nofun⟩
    · obtain ⟨field, -, rfl⟩ := Option.map_eq_some_iff.mp h
      exact ⟨nofun, nofun⟩

theorem decideLeaf_reads (ctx : PlanContext) (needed : Option (List String))
    (filter : Option Expr) (op : LogicalOp) :
    (decideLeaf ctx needed filter op).access.Reads needed := by
  induction op generalizing filter with
  | getById _ _ | getByIds _ _ | join _ _ _ _ => exact ⟨nofun, nofun⟩
  | scan collection =>
    rw [decideLeaf]
    cases hd : (filter.bind (decideIndex ctx collection)).or _ with
    | none => exact ⟨nofun, nofun⟩
    | some d =>
      rcases Option.or_eq_some_iff.mp hd with h | ⟨-, h⟩
      · obtain ⟨predicate, -, h⟩ := Option.bind_eq_some_iff.mp h
        exact decideIndex_reads h
      · split_ifs at h
        obtain ⟨fields, rfl, rfl⟩ := Option.map_eq_some_iff.mp h
        exact ⟨nofun, fun fields' hf => congrArg some (Option.some.inj hf)⟩
  | filter input predicate ih =>
    cases input with
    | scan collection => exact ih (some predicate)
    | _ => exact ih filter
  | project input _ ih | sort input _ ih | limit input _ ih | aggregate input _ _ ih =>
    exact ih filter

theorem topkOverScan_collection {op : LogicalOp} {c key : String} {descending : Bool} {k : ℕ}
    (h : topkOverScan op = some (c, key, descending, k)) : op.collection = c := by
  induction op with
  | project input fields ih => exact ih h
  | limit input n =>
    match input, h with
    | .sort (.scan _) [_], rfl => rfl
  | _ => cases h

/-- What the decision made for a plan may be. -/
theorem decide_spec (logical : LogicalOp) (ctx : PlanContext) :
    (decide logical ctx).access.Reads logical.requiredFields ∨
      ∃ key descending k, (decide logical ctx).access = .columnarTopK key descending ∧
        topkOverScan logical = some (logical.collection, key, descending, k) := by
  rw [decide]
  cases hc : (filterDirectlyOverScan logical).bind
      (decideCovering ctx logical.collection logical.requiredFields) with
  | some d =>
    obtain ⟨predicate, -, h⟩ := Option.bind_eq_some_iff.mp hc
    exact .inl (decideCovering_reads h)
  | none =>
    cases ht : decideTopK ctx logical with
    | none => exact .inl (decideLeaf_reads ctx _ none logical)
    | some d =>
      obtain ⟨⟨c, key, descending, k⟩, htop, h⟩ := Option.bind_eq_some_iff.mp ht
      simp only [Option.ite_none_right_eq_some] at h
      obtain ⟨-, hd⟩ := h
      cases hd
      have hcol := topkOverScan_collection htop
      subst hcol
      exact .inr ⟨key, descending, k, rfl, htop⟩

/-! ## Without structures -/

theorem indexFor_empty (collection field : String) :
    PlanContext.empty.indexFor collection field = none := by
  simp [PlanContext.indexFor, PlanContext.empty]

theorem bestField_empty (collection : String) (predicate : Expr) :
    PlanContext.empty.bestField collection predicate = none := by
  have hnone : ∀ field, ¬ ((PlanContext.empty.partialFor collection field predicate).isSome ∨
      (PlanContext.empty.indexFor collection field).isSome) := by
    intro field
    rw [indexFor_empty]
    simp [PlanContext.partialFor, PlanContext.empty]
  rw [PlanContext.bestField]
  generalize predicate.equalityConstraints = constraints
  induction constraints with
  | nil => rfl
  | cons c constraints ih =>
    rw [List.foldl_cons, if_neg fun h => hnone c.1 h.1]
    exact ih

theorem decideIndex_empty (collection : String) (predicate : Expr) :
    decideIndex .empty collection predicate = none := by
  have hrange : ((predicate.rangeFields []).find? fun field =>
      PlanContext.empty.rangeIndexFor collection field &&
        (predicate.rangeConstraint field).isSome) = none := by
    rw [List.find?_eq_none]
    intro field _
    simp [PlanContext.rangeIndexFor, PlanContext.empty]
  rw [decideIndex, bestField_empty, hrange]
  rfl

theorem decideCovering_empty (collection : String) (needed : Option (List String))
    (predicate : Expr) : decideCovering .empty collection needed predicate = none := by
  cases needed <;> rfl

/-- No access path is named. -/
def AccessDecision.Pathless : AccessDecision → Prop
  | .byId | .byIds | .fullScan => True
  | _ => False

theorem decideLeaf_empty (needed : Option (List String)) (filter : Option Expr) (op : LogicalOp) :
    (decideLeaf .empty needed filter op).access.Pathless := by
  induction op generalizing filter with
  | getById _ _ | getByIds _ _ | join _ _ _ _ => trivial
  | scan collection =>
    have hnone : filter.bind (decideIndex .empty collection) = none := by
      cases filter with
      | none => rfl
      | some predicate => exact decideIndex_empty collection predicate
    rw [decideLeaf, hnone]
    trivial
  | filter input predicate ih =>
    cases input with
    | scan collection => exact ih (some predicate)
    | _ => exact ih filter
  | project input _ ih | sort input _ ih | limit input _ ih | aggregate input _ _ ih =>
    exact ih filter

/-- With nothing but the records to go by, no access path is chosen. -/
theorem decide_empty (logical : LogicalOp) : (decide logical .empty).access.Pathless := by
  have hcovering : (filterDirectlyOverScan logical).bind
      (decideCovering .empty logical.collection logical.requiredFields) = none := by
    cases filterDirectlyOverScan logical with
    | none => rfl
    | some predicate => exact decideCovering_empty _ _ predicate
  have htop : decideTopK .empty logical = none := by
    rw [decideTopK]
    cases topkOverScan logical <;> rfl
  rw [decide, hcovering, htop]
  exact decideLeaf_empty _ none logical

theorem Serves.of_pathless {src : QuerySource} {d : AccessDecision} (h : d.Pathless) :
    Serves src logical d := by
  cases d with
  | byId | byIds | fullScan => exact fun _ _ _ _ => trivial
  | _ => exact h.elim

/-! ## Planned queries -/

/-- The rows of a query planned with the structures of a context. -/
def planned (src : QuerySource) (logical : LogicalOp) (ctx : PlanContext) : Result (List Row) := do
  let p ← plan logical ctx
  execute src p

/-- A planned query returns what its plan asks for when its decision serves it. -/
theorem planned_answer {src : QuerySource} (hs : src.Holds) (hj : logical.containsJoin = false)
    (h : Serves src logical (decide logical ctx).access) :
    planned src logical ctx = answer src logical := by
  rw [planned, plan, execute_buildFrom]
  rcases decide_spec logical ctx with hreads | ⟨key, descending, k, htop, hover⟩
  · cases hneeded : logical.requiredFields with
    | some fields =>
      obtain ⟨names, hnames, rfl⟩ := Option.map_eq_some_iff.mp hneeded
      have hamong : Among names (some (ascend names)) := by
        rintro _ ⟨⟩ f hf
        exact mem_ascend.mpr hf
      exact builtRows_bounded hs hreads.notTopK (hneeded ▸ hreads.fields) hj hnames hamong h
    | none =>
      have hwhole : Among (logical.requiredBelow []) none := nofun
      have halike := builtRows_alike hs hreads.notTopK (hneeded ▸ hreads.fields) hj hwhole h
      have hid : restrict none = id := rfl
      rwa [Alike, hid, id_map, id_map] at halike
  · rw [htop] at h ⊢
    exact builtRows_topK hs hover h

def flagged (b : Bool) : Record := (∅ : Record).set "f" ⟨.bool b, trivial⟩

def twoFlags : OrdMap RecordId Record :=
  ((∅ : OrdMap RecordId Record).insert 0 (flagged true)).insert 1 (flagged false)

def flagIndex : Index := .build (.covering "f" ["f"]) .btree twoFlags

def flagSource : QuerySource where
  store := (∅ : OrdMap String (OrdMap RecordId Record)).insert "c" twoFlags
  indexes := (∅ : OrdMap String (List Index)).insert "c" [flagIndex]
  columns := ∅

def flagContext : PlanContext :=
  { PlanContext.empty with covering := fun _ => [(flagIndex.field, flagIndex.covers, .btree)] }

def flagPlan (op : CmpOp) (b : Bool) : LogicalOp :=
  .project (.filter (.scan "c") (.compare op (.field "f") (.literal (.bool b)))) ["f"]

theorem flagIndex_holds : flagIndex.Holds twoFlags where
  complete := by decide
  sound := by
    intro e he id hid
    have hentries : flagIndex.entries = [(.bool false, [1]), (.bool true, [0])] := rfl
    rw [hentries, List.mem_cons, List.mem_singleton] at he
    rcases he with rfl | rfl
    · obtain rfl := List.mem_singleton.mp hid
      exact ⟨(1, flagged false), List.mem_cons_of_mem _ List.mem_cons_self, rfl, _, rfl, rfl⟩
    · obtain rfl := List.mem_singleton.mp hid
      exact ⟨(0, flagged true), List.mem_cons_self, rfl, _, rfl, rfl⟩
  ids := by decide
  keys := by decide
  rows := by
    intro r hr _ _
    have hrows : twoFlags.entries = [(0, flagged true), (1, flagged false)] := rfl
    rw [hrows, List.mem_cons, List.mem_singleton] at hr
    rcases hr with rfl | rfl <;> rfl

theorem flagSource_holds : flagSource.Holds where
  indexes := by
    intro collection i hi
    rw [QuerySource.indexList, flagSource, OrdMap.get_insert] at hi
    split_ifs at hi with hc
    · obtain rfl : i = flagIndex := by simpa using hi
      refine ⟨twoFlags, ?_, flagIndex_holds⟩
      rw [hc, flagSource, OrdMap.get_insert_self]
    · simp at hi
  columns := nofun

/-- A source with nothing but records. -/
def recordsOnly (store : OrdMap String (OrdMap RecordId Record)) : QuerySource := ⟨store, ∅, ∅⟩

/-- Every record with the named fields alone. -/
def projectedTo (fields : List String) (store : OrdMap String (OrdMap RecordId Record)) :
    OrdMap String (OrdMap RecordId Record) :=
  store.mapVal fun _ records => records.mapVal fun _ rec => rec.project fields

theorem recordsOnly_holds (store : OrdMap String (OrdMap RecordId Record)) :
    (recordsOnly store).Holds where
  indexes := fun _ _ hi => nomatch hi
  columns := fun _ _ hc => nomatch hc

section Narrowed

variable {store : OrdMap String (OrdMap RecordId Record)} {fields : List String}

theorem restrict_projectRows (rows : List Row) :
    restrict (some fields) (projectRows fields rows) = restrict (some fields) rows :=
  projectRows_projectRows (fun _ hf => hf) rows

/-- What a leaf reads of projected records agrees on the fields with what it reads of
the whole ones. -/
theorem answer_records {f : OrdMap RecordId Record → List Row}
    (hf : ∀ records, f (records.mapVal fun _ rec => rec.project fields) =
      projectRows fields (f records)) (collection : String) :
    Alike (some fields) (f <$> (recordsOnly (projectedTo fields store)).records collection)
      (f <$> (recordsOnly store).records collection) := by
  rw [Alike, QuerySource.records, QuerySource.records, recordsOnly, recordsOnly, projectedTo,
    OrdMap.get_mapVal]
  cases store.get collection with
  | none => rfl
  | some records =>
    refine congrArg Except.ok ?_
    rw [hf, restrict_projectRows]

theorem answer_getById (src : QuerySource) (collection : String) (id : RecordId) :
    answer src (.getById collection id) =
      (fun records => ((records.get id).map fun rec => (id, rec)).toList) <$>
        src.records collection := by
  rw [answer, QuerySource.fetch]
  cases src.records collection <;> rfl

theorem answer_getByIds (src : QuerySource) (collection : String) (ids : List RecordId) :
    answer src (.getByIds collection ids) = if ids.isEmpty then .ok []
      else (fun records => records.entries.filter fun r => r.1 ∈ ids) <$> src.records collection := by
  rw [answer]
  cases src.records collection <;> rfl

/-- Beneath a projection or an aggregate, projected records do. -/
theorem answer_projected {op : LogicalOp} (hj : op.containsJoin = false) {out : List String}
    (hn : Among (op.requiredBelow out) (some fields)) :
    Alike (some fields) (answer (recordsOnly (projectedTo fields store)) op)
      (answer (recordsOnly store) op) := by
  induction op generalizing out with
  | getById collection id =>
    rw [answer_getById, answer_getById]
    refine answer_records (fun records => ?_) collection
    rw [OrdMap.get_mapVal]
    cases records.get id <;> rfl
  | getByIds collection ids =>
    rw [answer_getByIds, answer_getByIds]
    split_ifs
    · exact .of_eq rfl
    · refine answer_records (fun records => ?_) collection
      exact List.filter_map
  | scan collection => exact answer_records (fun _ => rfl) collection
  | filter input predicate ih =>
    have hp : Among (predicate.referencedFields []) (some fields) := hn.mono
      (List.Subset.trans (Expr.referencedFields_mono (List.nil_subset out) predicate)
        (requiredBelow_subset _ hj))
    exact (ih hj hn).map (restrict_filter hp)
  | project input names ih =>
    have hp : Among names (some fields) := hn.mono
      (List.Subset.trans (List.subset_append_right _ _) (requiredBelow_subset _ hj))
    exact .of_eq ((ih hj hn).map_eq (project_restrict hp))
  | sort input keys ih =>
    have hk : Among (keys.map (·.field)) (some fields) := hn.mono
      (List.Subset.trans (List.subset_append_right _ _) (requiredBelow_subset _ hj))
    exact (ih hj hn).map (restrict_sort hk)
  | limit input n ih => exact (ih hj hn).map (restrict_take n.toNat)
  | aggregate input groupBy aggs ih =>
    have hread : groupBy ++ Agg.fields aggs ⊆ out ++ groupBy ++ Agg.fields aggs := by
      rw [List.append_assoc]
      exact List.subset_append_right _ _
    have ha : Among (groupBy ++ Agg.fields aggs) (some fields) := hn.mono
      (List.Subset.trans hread (requiredBelow_subset _ hj))
    exact .of_eq ((ih hj hn).map_eq (aggregate_restrict ha))
  | join _ _ _ _ => cases hj

theorem answer_bounded {op : LogicalOp} (hj : op.containsJoin = false) {out names : List String}
    (ho : op.collectRequired out = some names) (hn : Among names (some fields)) :
    answer (recordsOnly (projectedTo fields store)) op = answer (recordsOnly store) op := by
  induction op generalizing out with
  | project input own =>
    cases ho
    have hbelow : Among (input.requiredBelow []) (some fields) :=
      hn.mono (List.subset_append_right _ _)
    have hinput : Alike (some fields) (answer (recordsOnly (projectedTo fields store)) input)
        (answer (recordsOnly store) input) := answer_projected hj hbelow
    refine hinput.map_eq (project_restrict (hn.mono ?_))
    rw [List.append_assoc]
    exact List.Subset.trans (List.subset_append_left _ _) (List.subset_append_right _ _)
  | aggregate input groupBy aggs =>
    cases ho
    have hbelow : Among (input.requiredBelow []) (some fields) :=
      hn.mono (List.subset_append_right _ _)
    have hinput : Alike (some fields) (answer (recordsOnly (projectedTo fields store)) input)
        (answer (recordsOnly store) input) := answer_projected hj hbelow
    refine hinput.map_eq (aggregate_restrict (hn.mono ?_))
    simp only [List.append_assoc]
    exact List.Subset.trans (by simp) (List.subset_append_right _ _)
  | limit input n ih => exact congrArg (List.take n.toNat <$> ·) (ih hj ho)
  | sort input keys ih => exact congrArg (sortRows keys <$> ·) (ih hj ho)
  | _ => cases ho

end Narrowed

/-- A plan that reads some fields only returns over records cut down to them what it
returns over whole records. -/
theorem required_fields_sound (store : OrdMap String (OrdMap RecordId Record)) (op : LogicalOp)
    (hj : op.containsJoin = false) (fields : List String)
    (hf : op.requiredFields = some fields) :
    planned (recordsOnly (projectedTo fields store)) op .empty =
      planned (recordsOnly store) op .empty := by
  obtain ⟨names, hnames, rfl⟩ := Option.map_eq_some_iff.mp hf
  have hamong : Among names (some (ascend names)) := by
    rintro _ ⟨⟩ f hf
    exact mem_ascend.mpr hf
  rw [planned_answer (recordsOnly_holds _) hj (.of_pathless (decide_empty op)),
    planned_answer (recordsOnly_holds _) hj (.of_pathless (decide_empty op)),
    answer_bounded hj hnames hamong]

def labelledFlags : OrdMap String (OrdMap RecordId Record) :=
  (∅ : OrdMap String (OrdMap RecordId Record)).insert "c"
    (twoFlags.mapVal fun _ rec => rec.set "label" ⟨.u64 7, trivial⟩)

/-- The label of the records is not read. -/
theorem flags_sound : planned (recordsOnly (projectedTo ["f"] labelledFlags)) (flagPlan .eq true)
      .empty = planned (recordsOnly labelledFlags) (flagPlan .eq true) .empty :=
  required_fields_sound labelledFlags (flagPlan .eq true) rfl ["f"] (by decide)

end Adabt.Exec
