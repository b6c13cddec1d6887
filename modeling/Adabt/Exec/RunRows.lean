import Adabt.Exec.Run
import Adabt.Ir.Reads
import Adabt.Ir.VmCorrect

/-! # The rows of an operator

How the rows of an operator, batches forgotten, follow from the rows of its
input. A filter over a scan that peeks at a few fields keeps the rows that a
filter over whole records keeps. -/

set_option autoImplicit false

namespace Adabt.Exec
open Adabt.Core Adabt.Ir Adabt.Indexing Adabt.Library

def rowsOf (src : QuerySource) (op : PhysicalOp) : Result (List Row) := List.flatten <$> run src op

attribute [local simp] run

variable {src : QuerySource} {collection : String} {records : OrdMap RecordId Record}

/-! ## Batches -/

theorem flatten_batchesFrom (current rows : List Row) :
    (batchesFrom current rows).flatten = current ++ rows := by
  induction rows generalizing current with
  | nil => cases current <;> simp [batchesFrom]
  | cons row rest ih =>
    rw [batchesFrom]
    split_ifs
    · rw [List.flatten_cons, ih, List.nil_append, List.append_assoc, List.singleton_append]
    · rw [ih, List.append_assoc, List.singleton_append]

@[simp] theorem flatten_batchesOf (rows : List Row) : (batchesOf rows).flatten = rows :=
  flatten_batchesFrom [] rows

theorem flatten_filterBatches (program : Program) (batches : List Batch) :
    (filterBatches program batches).flatten =
      batches.flatten.filter fun r => passes program r.2 := by
  induction batches with
  | nil => rfl
  | cons b rest ih =>
    rw [filterBatches, List.map_cons, List.filter_cons] at *
    rw [List.flatten_cons, List.filter_append, ← ih]
    split_ifs with hb
    · rw [List.flatten_cons]
    · have hnil : (b.filter fun r => passes program r.2) = [] := by simpa using hb
      rw [hnil, List.nil_append]

theorem flatten_limitBatches (n taken : ℕ) (batches : List Batch) :
    (limitBatches n taken batches).flatten = batches.flatten.take (n - taken) := by
  induction batches generalizing taken with
  | nil => simp [limitBatches]
  | cons b rest ih =>
    rw [limitBatches]
    split_ifs with h
    · rw [Nat.sub_eq_zero_of_le h, List.take_zero, List.flatten_nil]
    · rw [List.flatten_cons, List.flatten_cons, ih, List.take_append, List.length_take]
      congr 2
      omega

theorem flatten_projectRows (fields : List String) (batches : List Batch) :
    (batches.map (projectRows fields)).flatten = projectRows fields batches.flatten := by
  rw [projectRows, List.map_flatten]
  rfl

theorem passes_compile (predicate : Expr) (rec : Record) :
    passes (Program.compile predicate) rec = predicate.matches' rec := by
  rw [passes, Program.run_compile, Expr.matches']

/-! ## Fetching -/

theorem records_ok (h : src.store.get collection = some records) :
    src.records collection = .ok records := by rw [QuerySource.records, h]

theorem fetch_eq (h : src.store.get collection = some records) (id : RecordId) :
    src.fetch collection id = .ok (records.get id) := by
  rw [QuerySource.fetch, records_ok h]
  rfl

theorem allIds_eq (h : src.store.get collection = some records) :
    src.allIds collection = .ok records.keys := by
  rw [QuerySource.allIds, records_ok h]
  rfl

theorem fetchRows_eq (h : src.store.get collection = some records) (ids : List RecordId) :
    fetchRows src collection ids =
      .ok (ids.filterMap fun id => (records.get id).map fun rec => (id, rec)) := by
  induction ids with
  | nil => rfl
  | cons id ids ih =>
    rw [fetchRows, fetch_eq h, ih, ok_bind, ok_bind, List.filterMap_cons]
    cases records.get id with
    | none => rfl
    | some rec => rfl

/-- The records of some ids, fetched in id order, are a part of the scan. -/
theorem fetched_eq (records : OrdMap RecordId Record) (ids : List RecordId) :
    ((ascend ids).filterMap fun id => (records.get id).map fun rec => (id, rec)) =
      records.entries.filter fun r => r.1 ∈ ids := by
  apply ascending_ext Prod.fst
  · refine List.Pairwise.filterMap _ (fun a b hab x hx y hy => ?_) (ascend_ascending ids)
    obtain ⟨_, -, rfl⟩ := Option.map_eq_some_iff.mp hx
    obtain ⟨_, -, rfl⟩ := Option.map_eq_some_iff.mp hy
    exact hab
  · exact records.sorted.filter _
  · rintro ⟨id, rec⟩
    simp only [List.mem_filterMap, mem_ascend, Option.map_eq_some_iff, Prod.mk.injEq,
      List.mem_filter, OrdMap.mem_entries, decide_eq_true_eq]
    constructor
    · rintro ⟨id', hid, rec', hrec, rfl, rfl⟩
      exact ⟨hrec, hid⟩
    · rintro ⟨hrec, hid⟩
      exact ⟨id, hid, rec, hrec, rfl, rfl⟩

theorem fetchBatches_rows (h : src.store.get collection = some records) (ids : List RecordId) :
    List.flatten <$> fetchBatches src collection ids =
      .ok (records.entries.filter fun r => r.1 ∈ ids) := by
  rw [fetchBatches, fetchRows_eq h, fetched_eq]
  exact congrArg Except.ok (flatten_batchesOf _)

theorem scanBatches_rows (h : src.store.get collection = some records) :
    List.flatten <$> scanBatches src collection = .ok records.entries := by
  rw [scanBatches, allIds_eq h, ok_bind]
  refine (fetchBatches_rows h records.keys).trans (congrArg Except.ok ?_)
  rw [List.filter_eq_self]
  intro r hr
  exact decide_eq_true (List.mem_map_of_mem hr)

theorem scanBatches_unknown (h : src.store.get collection = none) :
    scanBatches src collection = .error (.error (.noSuchCollection collection)) := by
  rw [scanBatches, QuerySource.allIds, QuerySource.records, h]
  rfl

theorem rowsOf_heapScan (h : src.store.get collection = some records) :
    rowsOf src (.heapScan collection) = .ok records.entries := scanBatches_rows h

/-! ## Filters -/

theorem survivorsByPeek_eq (h : src.store.get collection = some records) {field : String}
    {predicate : Expr} (hf : predicate.referencedFields [] = [field]) {ids : List RecordId}
    (hids : ∀ id ∈ ids, (records.get id).isSome) :
    survivorsByPeek src collection field (Program.compile predicate) ids =
      .ok (ids.filter fun id => (records.get id).any predicate.matches') := by
  induction ids with
  | nil => rfl
  | cons id ids ih =>
    obtain ⟨rec, hrec⟩ := Option.isSome_iff_exists.mp (hids id List.mem_cons_self)
    have hpeek : src.peekField collection id field = .ok (some (rec.get field)) := by
      rw [QuerySource.peekField, fetch_eq h, hrec]
      rfl
    rw [survivorsByPeek, hpeek, ih fun i hi => hids i (List.mem_cons_of_mem _ hi), ok_bind, ok_bind]
    have hagree : ∀ probe : Record, probe.get field = rec.get field →
        predicate.matches' probe = predicate.matches' rec := by
      intro probe hp
      apply Expr.matches_agree
      intro f hmem
      rw [hf, List.mem_singleton] at hmem
      rw [hmem, hp]
    have hkeep : passes (Program.compile predicate) (probe field (rec.get field)) =
        predicate.matches' rec := by
      rw [passes_compile]
      apply hagree
      cases hg : rec.get field with
      | none => rw [probe, OrdMap.get_empty]
      | some v => rw [probe, Record.set, OrdMap.get_insert_self]
    rw [Option.any_some, hkeep, List.filter_cons, hrec, Option.any_some]
    rfl

theorem survivorsByFields_eq (h : src.store.get collection = some records) {predicate : Expr}
    (ids : List RecordId) :
    survivorsByFields src collection (predicate.referencedFields []) (Program.compile predicate) ids =
      .ok (ids.filter fun id => (records.get id).any predicate.matches') := by
  induction ids with
  | nil => rfl
  | cons id ids ih =>
    have hfetch : src.fetchProjected collection id (predicate.referencedFields []) =
        .ok ((records.get id).map fun rec => rec.project (predicate.referencedFields [])) := by
      rw [QuerySource.fetchProjected, fetch_eq h]
      rfl
    have hprobe : ((records.get id).map fun rec => rec.project (predicate.referencedFields [])).any
        (passes (Program.compile predicate)) = (records.get id).any predicate.matches' := by
      cases records.get id with
      | none => rfl
      | some rec =>
        rw [Option.map_some, Option.any_some, Option.any_some, passes_compile]
        apply Expr.matches_agree
        intro f hf
        rw [Record.get_project, if_pos hf]
    rw [survivorsByFields, hfetch, ih, ok_bind, ok_bind, List.filter_cons, hprobe]
    rfl

/-- The survivors, fetched, are the rows of the scan that pass. -/
theorem fetch_survivors (records : OrdMap RecordId Record) (predicate : Expr) :
    (records.entries.filter fun r =>
      r.1 ∈ records.keys.filter fun id => (records.get id).any predicate.matches') =
    records.entries.filter fun r => predicate.matches' r.2 := by
  apply List.filter_congr
  rintro ⟨id, rec⟩ hr
  have hg := (OrdMap.mem_entries records id rec).mp hr
  simp [OrdMap.mem_keys, hg]

theorem rowsOf_filter_heapScan (h : src.store.get collection = some records) (predicate : Expr) :
    rowsOf src (.filter (.heapScan collection) predicate) =
      .ok (records.entries.filter fun r => predicate.matches' r.2) := by
  have hkeys : ∀ id ∈ records.keys, (records.get id).isSome := fun id hid =>
    (OrdMap.mem_keys records id).mp hid
  have hgeneral : List.flatten <$> (filterBatches (Program.compile predicate) <$>
      run src (.heapScan collection)) =
        .ok (records.entries.filter fun r => predicate.matches' r.2) := by
    obtain ⟨batches, hb, hrows⟩ := map_eq_ok.mp (rowsOf_heapScan h)
    rw [hb]
    refine congrArg Except.ok ?_
    rw [flatten_filterBatches, hrows]
    simp only [passes_compile]
  have hpeek : ∀ batches : Result (List RecordId),
      batches = .ok (records.keys.filter fun id => (records.get id).any predicate.matches') →
      List.flatten <$> (batches >>= fetchBatches src collection) =
        .ok (records.entries.filter fun r => predicate.matches' r.2) := by
    rintro _ rfl
    rw [ok_bind, fetchBatches_rows h, fetch_survivors]
  rw [rowsOf, run]
  simp only [PhysicalOp.heapScanned]
  split
  · rename_i hc hf
    cases hc
    rw [filterByPeek, allIds_eq h, ok_bind]
    exact hpeek _ (survivorsByPeek_eq h hf hkeys)
  · rename_i hc hf
    cases hc
    split_ifs
    · rw [← hf, filterByPeekFields, allIds_eq h, ok_bind]
      exact hpeek _ (survivorsByFields_eq h records.keys)
    · exact hgeneral
  · exact hgeneral

theorem rowsOf_filter_heapScan_unknown (h : src.store.get collection = none) (predicate : Expr) :
    rowsOf src (.filter (.heapScan collection) predicate) =
      .error (.error (.noSuchCollection collection)) := by
  have hids : src.allIds collection = .error (.error (.noSuchCollection collection)) := by
    rw [QuerySource.allIds, QuerySource.records, h]
    rfl
  rw [rowsOf, run]
  simp only [PhysicalOp.heapScanned]
  split
  · rename_i hc _
    cases hc
    rw [filterByPeek, hids]
    rfl
  · rename_i hc _
    cases hc
    split_ifs
    · rw [filterByPeekFields, hids]
      rfl
    · rw [run, scanBatches_unknown h]
      rfl
  · rw [run, scanBatches_unknown h]
    rfl

/-- A filter keeps the rows of its input that pass. -/
theorem rowsOf_filter (input : PhysicalOp) (predicate : Expr) :
    rowsOf src (.filter input predicate) =
      (List.filter fun r => predicate.matches' r.2) <$> rowsOf src input := by
  cases hs : input.heapScanned with
  | some collection =>
    obtain rfl : input = .heapScan collection := by
      cases input <;> simp_all [PhysicalOp.heapScanned]
    cases hg : src.store.get collection with
    | none =>
      rw [rowsOf_filter_heapScan_unknown hg, rowsOf, run, scanBatches_unknown hg]
      rfl
    | some records =>
      rw [rowsOf_filter_heapScan hg, rowsOf_heapScan hg]
      rfl
  | none =>
    rw [rowsOf, run]
    simp only [hs]
    rw [rowsOf]
    cases run src input with
    | error e => rfl
    | ok batches =>
      refine congrArg Except.ok ?_
      simp only [flatten_filterBatches, passes_compile]

/-! ## The other operators -/

theorem rowsOf_project (input : PhysicalOp) (fields : List String) :
    rowsOf src (.project input fields) = projectRows fields <$> rowsOf src input := by
  rw [rowsOf, run, rowsOf]
  cases run src input with
  | error e => rfl
  | ok batches => exact congrArg Except.ok (flatten_projectRows fields batches)

theorem rowsOf_limit (input : PhysicalOp) (n : ℕ) :
    rowsOf src (.limit input n) = List.take n <$> rowsOf src input := by
  rw [rowsOf, run, rowsOf]
  cases run src input with
  | error e => rfl
  | ok batches => exact congrArg Except.ok (flatten_limitBatches n 0 batches)

theorem rowsOf_sort (input : PhysicalOp) (keys : List SortKey) :
    rowsOf src (.sort input keys) = sortRows keys <$> rowsOf src input := by
  rw [rowsOf, run, rowsOf]
  cases run src input with
  | error e => rfl
  | ok batches => exact congrArg Except.ok (flatten_batchesOf _)

theorem rowsOf_aggregate {input : PhysicalOp} {groupBy : List String} {aggs : List Agg}
    (h : (input.columnarInput.bind fun p => src.columnAggregate p.1 groupBy aggs p.2) = none) :
    rowsOf src (.aggregate input groupBy aggs) =
      (fun rows => aggregate rows groupBy aggs) <$> rowsOf src input := by
  rw [rowsOf, run, h, rowsOf]
  cases run src input with
  | error e => rfl
  | ok batches => exact congrArg Except.ok (List.append_nil _)

theorem rowsOf_aggregate_columns {input : PhysicalOp} {groupBy : List String} {aggs : List Agg}
    {rows : List Row}
    (h : (input.columnarInput.bind fun p => src.columnAggregate p.1 groupBy aggs p.2) = some rows) :
    rowsOf src (.aggregate input groupBy aggs) = .ok rows := by
  rw [rowsOf, run, h]
  exact congrArg Except.ok (List.append_nil _)

end Adabt.Exec
