import Adabt.Exec.AccessPaths
import Adabt.Exec.ColumnAggregates
import Adabt.Exec.Planner

/-! # What a plan asks for

The answer to a logical plan, read off its operators over the records alone. A
plan without an access path computes it; a decision serves a plan when the access
path it names does no harm to it. -/

set_option autoImplicit false

namespace Adabt.Exec
open Adabt.Core Adabt.Ir Adabt.Indexing Adabt.Library

/-- The rows a plan over one collection asks for. -/
def answer (src : QuerySource) : LogicalOp → Result (List Row)
  | .getById collection id => do
    let found ← src.fetch collection id
    return (found.map fun rec => (id, rec)).toList
  | .getByIds collection ids =>
    -- Without ids the collection is not looked for.
    if ids.isEmpty then .ok []
    else do
      let records ← src.records collection
      return records.entries.filter fun r => r.1 ∈ ids
  | .scan collection => do
    let records ← src.records collection
    return records.entries
  | .filter input predicate => (List.filter fun r => predicate.matches' r.2) <$> answer src input
  | .project input fields => projectRows fields <$> answer src input
  | .sort input keys => sortRows keys <$> answer src input
  | .limit input n => List.take n.toNat <$> answer src input
  | .aggregate input groupBy aggs => (fun rows => aggregate rows groupBy aggs) <$> answer src input
  | .join .. => .error (.panicked
      "build_node reached a Join; callers must go through plan(), not build_node() directly")

/-- The rows of the physical plan that a decision makes of a logical one. -/
def builtRows (src : QuerySource) (d : AccessDecision) (op : LogicalOp) : Result (List Row) := do
  let physical ← buildNode d op
  rowsOf src physical

theorem execute_buildFrom (src : QuerySource) (logical : LogicalOp) (decision : PlanDecision) :
    (do let p ← buildFrom logical decision; execute src p) =
      builtRows src decision.access logical := by
  rw [buildFrom, builtRows]
  cases buildNode decision.access logical with
  | error e => rfl
  | ok root => rfl

variable {src : QuerySource} {d : AccessDecision} {collection : String}

/-! ## The operators above an access path -/

/-- An operator over a built input computes on the rows of the input. -/
theorem map_builtRows {build : PhysicalOp → PhysicalOp} {f : List Row → List Row}
    (h : ∀ op, rowsOf src (build op) = f <$> rowsOf src op) (op : Except Fault PhysicalOp) :
    ((build <$> op) >>= rowsOf src) = f <$> (op >>= rowsOf src) := by
  cases op with
  | error e => rfl
  | ok op => exact h op

theorem builtRows_project (input : LogicalOp) (fields : List String) :
    builtRows src d (.project input fields) = projectRows fields <$> builtRows src d input := by
  rw [builtRows, buildNode]
  exact map_builtRows (fun op => rowsOf_project op fields) _

theorem builtRows_sort (input : LogicalOp) (keys : List SortKey) :
    builtRows src d (.sort input keys) = sortRows keys <$> builtRows src d input := by
  rw [builtRows, buildNode]
  exact map_builtRows (fun op => rowsOf_sort op keys) _

theorem builtRows_limit (hd : ∀ key descending, d ≠ .columnarTopK key descending)
    (input : LogicalOp) (n : UInt64) :
    builtRows src d (.limit input n) = List.take n.toNat <$> builtRows src d input := by
  have hbuild : buildNode d (.limit input n) = (.limit · n.toNat) <$> buildNode d input := by
    cases d with
    | columnarTopK key descending => exact absurd rfl (hd key descending)
    | _ => rfl
  rw [builtRows, hbuild]
  exact map_builtRows (fun op => rowsOf_limit op n.toNat) _

/-- Whether a plan is a scan. -/
def IsScan (op : LogicalOp) : Prop := ∃ collection, op = .scan collection

theorem builtRows_filter {input : LogicalOp} (h : ¬ IsScan input) (predicate : Expr) :
    builtRows src d (.filter input predicate) =
      (List.filter fun r => predicate.matches' r.2) <$> builtRows src d input := by
  have hbuild : buildNode d (.filter input predicate) = (.filter · predicate) <$> buildNode d input := by
    cases input with
    | scan collection => exact absurd ⟨collection, rfl⟩ h
    | _ => rfl
  rw [builtRows, hbuild]
  exact map_builtRows (fun op => rowsOf_filter op predicate) _

/-! ## Rows of which only some fields are read -/

/-- What is left of rows when only the needed fields are read. -/
def restrict (needed : Option (List String)) (rows : List Row) : List Row :=
  match needed with
  | none => rows
  | some fields => projectRows fields rows

/-- All the fields are among those needed. -/
def Among (fields : List String) (needed : Option (List String)) : Prop :=
  ∀ n ∈ needed, ∀ f ∈ fields, f ∈ n

/-- Equal as far as the needed fields go. -/
def Alike (needed : Option (List String)) (x y : Result (List Row)) : Prop :=
  restrict needed <$> x = restrict needed <$> y

variable {needed : Option (List String)} {x y : Result (List Row)}

theorem Alike.map (h : Alike needed x y) {f : List Row → List Row}
    (hf : ∀ rows, restrict needed (f rows) = f (restrict needed rows)) :
    Alike needed (f <$> x) (f <$> y) := by
  rw [Alike] at h ⊢
  have hcomm : ∀ z : Result (List Row), restrict needed <$> f <$> z = f <$> restrict needed <$> z := by
    intro z
    cases z with
    | error e => rfl
    | ok rows => exact congrArg Except.ok (hf rows)
  rw [hcomm, hcomm, h]

theorem Alike.map_eq (h : Alike needed x y) {f : List Row → List Row}
    (hf : ∀ rows, f (restrict needed rows) = f rows) : f <$> x = f <$> y := by
  have hread : ∀ z : Result (List Row), f <$> z = f <$> restrict needed <$> z := by
    intro z
    cases z with
    | error e => rfl
    | ok rows => exact congrArg Except.ok (hf rows).symm
  rw [hread x, hread y, h]

theorem restrict_take (n : ℕ) (rows : List Row) :
    restrict needed (rows.take n) = (restrict needed rows).take n := by
  cases needed with
  | none => rfl
  | some fields => exact List.map_take

theorem restrict_filter {predicate : Expr} (h : Among (predicate.referencedFields []) needed)
    (rows : List Row) :
    restrict needed (rows.filter fun r => predicate.matches' r.2) =
      (restrict needed rows).filter fun r => predicate.matches' r.2 := by
  cases needed with
  | none => rfl
  | some fields => exact (filter_projectRows (h fields rfl) rows).symm

theorem compareRows_project {fields : List String} {keys : List SortKey}
    (h : ∀ k ∈ keys, k.field ∈ fields) (a b : Record) :
    compareRows a b keys = compareRows (a.project fields) (b.project fields) keys := by
  induction keys with
  | nil => rfl
  | cons k keys ih =>
    have hk := h k List.mem_cons_self
    rw [compareRows, compareRows, ih fun j hj => h j (List.mem_cons_of_mem _ hj),
      Record.get_project, Record.get_project, if_pos hk, if_pos hk]

theorem restrict_sort {keys : List SortKey} (h : Among (keys.map (·.field)) needed)
    (rows : List Row) : restrict needed (sortRows keys rows) = sortRows keys (restrict needed rows) := by
  cases needed with
  | none => rfl
  | some fields =>
    apply sortBy_map
    intro a _ b _
    rw [rowOrder, rowOrder,
      compareRows_project fun k hk => h fields rfl k.field (List.mem_map_of_mem hk)]

theorem project_restrict {fields : List String} (h : Among fields needed) (rows : List Row) :
    projectRows fields (restrict needed rows) = projectRows fields rows := by
  cases needed with
  | none => rfl
  | some needed => exact projectRows_projectRows (h needed rfl) rows

theorem AggAcc.take_project {a : Agg} {fields : List String} (h : ∀ f ∈ a.field, f ∈ fields)
    (acc : AggAcc) (rec : Record) : acc.take a (rec.project fields) = acc.take a rec := by
  obtain ⟨kind, field, output⟩ := a
  cases field with
  | none => rfl
  | some f =>
    have hf : (rec.project fields).get f = rec.get f := by rw [Record.get_project, if_pos (h f rfl)]
    cases kind <;> simp only [AggAcc.take, Option.bind_some, hf]

theorem groupKey_project {groupBy fields : List String} (h : ∀ g ∈ groupBy, g ∈ fields)
    (rec : Record) : groupKey groupBy (rec.project fields) = groupKey groupBy rec := by
  apply List.map_congr_left
  intro g hg
  rw [Record.get_project, if_pos (h g hg)]

theorem zipWith_take_project {aggs : List Agg} {fields : List String}
    (h : ∀ a ∈ aggs, ∀ f ∈ a.field, f ∈ fields) (accs : List AggAcc) (rec : Record) :
    List.zipWith (fun a acc => acc.take a (rec.project fields)) aggs accs =
      List.zipWith (fun a (acc : AggAcc) => acc.take a rec) aggs accs := by
  induction aggs generalizing accs with
  | nil => rfl
  | cons a aggs ih =>
    cases accs with
    | nil => rfl
    | cons acc accs =>
      rw [List.zipWith_cons_cons, List.zipWith_cons_cons,
        AggAcc.take_project (h a List.mem_cons_self),
        ih fun b hb => h b (List.mem_cons_of_mem _ hb)]

theorem aggregate_restrict {groupBy : List String} {aggs : List Agg}
    (h : Among (groupBy ++ Agg.fields aggs) needed) (rows : List Row) :
    aggregate (restrict needed rows) groupBy aggs = aggregate rows groupBy aggs := by
  cases needed with
  | none => rfl
  | some fields =>
    have hg : ∀ g ∈ groupBy, g ∈ fields := fun g hg => h fields rfl g (List.mem_append_left _ hg)
    have ha : ∀ a ∈ aggs, ∀ f ∈ a.field, f ∈ fields := fun a ham f hf =>
      h fields rfl f (List.mem_append_right _ (List.mem_filterMap.mpr ⟨a, ham, hf⟩))
    have hgroups : aggregateGroups (projectRows fields rows) groupBy aggs =
        aggregateGroups rows groupBy aggs := by
      rw [aggregateGroups, projectRows, List.foldl_map]
      simp only [groupKey_project hg, zipWith_take_project ha]
      rfl
    rw [aggregate, restrict, hgroups]
    rfl

end Adabt.Exec
