import Adabt.Exec.ColumnPaths

/-! # Aggregates over columns and over rows

The accumulators of the columns take a cell's part in every statistic at once,
those of the rows in the one that is asked for. They agree on what is asked as
long as sums and averages read numbers. -/

set_option autoImplicit false

namespace Adabt.Exec
open Adabt.Core Adabt.Ir Adabt.Library

/-! ## Accumulators -/

/-- What a sum or an average reads of a record is a number, if anything. -/
def ReadsNumbers (a : Agg) (rec : Record) : Prop :=
  a.kind = .sum ∨ a.kind = .avg →
    ∀ v ∈ a.field.bind rec.get, v.1.isNull = false → (asF64 v.1).isSome

namespace AggAcc

/-- Agreement on what the result of one kind of aggregate reads. -/
def Alike (kind : AggKind) (x y : AggAcc) : Prop :=
  match kind with
  | .count => x.count = y.count
  | .sum => x.sum = y.sum ∧ x.sawValue = y.sawValue
  | .avg => x.sum = y.sum ∧ x.count = y.count
  | .min => x.min = y.min
  | .max => x.max = y.max

theorem Alike.refl (kind : AggKind) (x : AggAcc) : x.Alike kind x := by
  cases kind <;> simp [Alike]

theorem Alike.result_eq {kind : AggKind} {x y : AggAcc} (h : x.Alike kind y) :
    x.result kind = y.result kind := by
  cases kind <;> simp_all [Alike, AggAcc.result]

/-- The first value no other is below. -/
def lowest (m : Option OrdValue) (v : OrdValue) : Option OrdValue :=
  if m.all fun m => v.1.cmp m.1 = .lt then some v else m

def highest (m : Option OrdValue) (v : OrdValue) : Option OrdValue :=
  if m.all fun m => v.1.cmp m.1 = .gt then some v else m

theorem lowered_eq (acc : AggAcc) (v : OrdValue) :
    acc.lowered v = { acc with min := lowest acc.min v } := by
  rw [lowered, lowest]
  split_ifs <;> rfl

theorem raised_eq (acc : AggAcc) (v : OrdValue) :
    acc.raised v = { acc with max := highest acc.max v } := by
  rw [raised, highest]
  split_ifs <;> rfl

theorem observe_null (acc : AggAcc) {v : OrdValue} (h : v.1.isNull = true) :
    acc.observe false (some v) = acc := by simp [observe, h]

theorem observe_value (acc : AggAcc) {v : OrdValue} (h : v.1.isNull = false) :
    acc.observe false (some v) =
      ⟨acc.count + 1, ((asF64 v.1).map acc.sum.add).getD acc.sum, true, lowest acc.min v,
        highest acc.max v⟩ := by
  simp only [observe, h, Bool.false_eq_true, if_false, lowered_eq, raised_eq]
  cases asF64 v.1 <;> rfl

theorem asF64_null {v : OrdValue} (h : v.1.isNull = true) : asF64 v.1 = none := by
  obtain ⟨v, hv⟩ := v
  cases v <;> first | rfl | cases h

/-- One cell keeps the accumulators of the columns and of the rows alike. -/
theorem Alike.observe {a : Agg} {rec : Record} {x y : AggAcc} (h : x.Alike a.kind y)
    (hn : ReadsNumbers a rec) :
    (x.observe (Decidable.decide (a.kind = .count ∧ a.field = none))
      (a.field.bind rec.get)).Alike a.kind
      (y.take a rec) := by
  obtain ⟨kind, field, output⟩ := a
  cases kind with
  | count =>
    cases field with
    | none => simpa [Alike, AggAcc.observe, take, counted] using h
    | some f =>
      simp only [Alike, take, Option.bind_some, reduceCtorEq, and_false, decide_false] at h ⊢
      cases hv : rec.get f with
      | none => exact h
      | some v =>
        cases hnull : v.1.isNull with
        | true => simpa [observe_null _ hnull, hnull] using h
        | false => simp [observe_value _ hnull, hnull, counted, h]
  | sum =>
    simp only [Alike, take, reduceCtorEq, false_and, decide_false] at h ⊢
    cases hv : field.bind rec.get with
    | none => exact h
    | some v =>
      cases hnull : v.1.isNull with
      | true => simpa [observe_null _ hnull, asF64_null hnull] using h
      | false =>
        obtain ⟨n, hn⟩ := Option.isSome_iff_exists.mp (hn (.inl rfl) v hv hnull)
        simp [observe_value _ hnull, hn, counted, summed, seen, h.1]
  | avg =>
    simp only [Alike, take, reduceCtorEq, false_and, decide_false] at h ⊢
    cases hv : field.bind rec.get with
    | none => exact h
    | some v =>
      cases hnull : v.1.isNull with
      | true => simpa [observe_null _ hnull, asF64_null hnull] using h
      | false =>
        obtain ⟨n, hn⟩ := Option.isSome_iff_exists.mp (hn (.inr rfl) v hv hnull)
        simp [observe_value _ hnull, hn, counted, summed, seen, h.1, h.2]
  | min =>
    simp only [Alike, take, reduceCtorEq, false_and, decide_false] at h ⊢
    cases hv : field.bind rec.get with
    | none => exact h
    | some v =>
      cases hnull : v.1.isNull with
      | true => simpa [observe_null _ hnull, hnull] using h
      | false => simp [observe_value _ hnull, hnull, lowered_eq, h]
  | max =>
    simp only [Alike, take, reduceCtorEq, false_and, decide_false] at h ⊢
    cases hv : field.bind rec.get with
    | none => exact h
    | some v =>
      cases hnull : v.1.isNull with
      | true => simpa [observe_null _ hnull, hnull] using h
      | false => simp [observe_value _ hnull, hnull, raised_eq, h]

end AggAcc

/-! ## Groups -/

/-- The accumulators of a group, each alike in what is asked of it. -/
inductive AllAlike : List Agg → List AggAcc → List AggAcc → Prop
  | nil : AllAlike [] [] []
  | cons {a : Agg} {aggs : List Agg} {x y : AggAcc} {xs ys : List AggAcc} :
    x.Alike a.kind y → AllAlike aggs xs ys → AllAlike (a :: aggs) (x :: xs) (y :: ys)

namespace AllAlike

variable {aggs : List Agg} {xs ys : List AggAcc}

theorem fresh (aggs : List Agg) : AllAlike aggs (freshAccs aggs) (freshAccs aggs) := by
  induction aggs with
  | nil => exact .nil
  | cons a aggs ih => exact .cons (.refl a.kind _) ih

theorem observe (h : AllAlike aggs xs ys) {rec : Record} (hn : ∀ a ∈ aggs, ReadsNumbers a rec) :
    AllAlike aggs
      (List.zipWith (fun a acc => acc.observe a.countsRows (a.field.bind rec.get))
        (QuerySource.columnAggs aggs) xs)
      (List.zipWith (fun a acc => acc.take a rec) aggs ys) := by
  induction h with
  | nil => exact .nil
  | cons hxy _ ih =>
    exact .cons (hxy.observe (hn _ List.mem_cons_self)) (ih fun a ha => hn a (List.mem_cons_of_mem _ ha))

theorem groupRecord_eq (h : AllAlike aggs xs ys) (groupBy : List String) (key : List OrdValue) :
    groupRecord groupBy aggs (key, xs) = groupRecord groupBy aggs (key, ys) := by
  simp only [groupRecord]
  generalize (groupBy.zip key).foldl (fun (rec : Record) p => rec.set p.1 p.2) ∅ = out
  induction h generalizing out with
  | nil => rfl
  | cons hxy _ ih =>
    rw [List.zip_cons_cons, List.zip_cons_cons, List.foldl_cons, List.foldl_cons, hxy.result_eq]
    exact ih _

end AllAlike

/-- The same keys, with accumulators that are alike. -/
def SameGroups (aggs : List Agg) : Groups → Groups → Prop :=
  List.Forall₂ fun g h => g.1 = h.1 ∧ AllAlike aggs g.2 h.2

namespace SameGroups

variable {aggs : List Agg} {g h : Groups}

theorem upsert (hs : SameGroups aggs g h) (key : List OrdValue) {fresh fresh' : List AggAcc}
    {f f' : List AggAcc → List AggAcc} (hfresh : AllAlike aggs fresh fresh')
    (hf : ∀ xs ys, AllAlike aggs xs ys → AllAlike aggs (f xs) (f' ys)) :
    SameGroups aggs (upsertGroup key fresh f g) (upsertGroup key fresh' f' h) := by
  induction hs with
  | nil => exact .cons ⟨rfl, hf _ _ hfresh⟩ .nil
  | @cons a b g h hab hrest ih =>
    rw [upsertGroup, upsertGroup, ← hab.1]
    cases cmpKeys key a.1 with
    | lt => exact .cons ⟨rfl, hf _ _ hfresh⟩ (.cons hab hrest)
    | eq => exact .cons ⟨rfl, hf _ _ hab.2⟩ hrest
    | gt => exact .cons hab ih

theorem groupRows_eq (hs : SameGroups aggs g h) (groupBy : List String) :
    groupRows groupBy aggs g = groupRows groupBy aggs h := by
  have hrecords : g.map (groupRecord groupBy aggs) = h.map (groupRecord groupBy aggs) := by
    induction hs with
    | nil => rfl
    | cons hab _ ih =>
      rw [List.map_cons, List.map_cons, ih]
      congr 1
      exact (congrArg (fun key => groupRecord groupBy aggs (key, _)) hab.1).trans
        (hab.2.groupRecord_eq groupBy _)
  have hrows : ∀ groups : Groups, groupRows groupBy aggs groups =
      (groups.map (groupRecord groupBy aggs)).zipIdx.map fun p => (Fin.ofNat _ p.2, p.1) := by
    intro groups
    rw [groupRows, List.zipIdx_map, List.map_map]
    rfl
  rw [hrows, hrows, hrecords]

end SameGroups

/-! ## The two walks -/

/-- A record a predicate keeps, if there is a predicate. -/
def keeps (predicate : Option Expr) (rec : Record) : Bool := predicate.all fun p => p.matches' rec

variable {store : ColumnStore} {records : OrdMap RecordId Record}

/-- Aggregating the columns gives what aggregating the records gives: rows stand
in id order, sums and averages read numbers, and an aggregate without groups has
a row to take. -/
structure ColumnStore.Aggregates (store : ColumnStore) (records : OrdMap RecordId Record)
    (groupBy : List String) (aggs : List Agg) (predicate : Option Expr) : Prop where
  ascending : (store.live.map (·.1)).Pairwise (· < ·)
  numbers : ∀ r ∈ records.entries, keeps predicate r.2 → ∀ a ∈ aggs, ReadsNumbers a r.2
  inhabited : groupBy ≠ [] ∨ ∃ r ∈ records.entries, keeps predicate r.2

theorem ColumnStore.admits_eq (h : store.Holds records) {r : RecordId × ℕ} (hr : r ∈ store.live)
    (predicate : Option Expr) :
    store.admits predicate r.2 = keeps predicate ((records.get r.1).getD ∅) := by
  cases predicate with
  | none => rfl
  | some p =>
    rw [admits, keeps, Option.all_some, Option.all_some, store.assemble_eq h hr]
    apply Expr.matches_agree
    intro f hf
    rw [Record.get_project, if_pos hf]

theorem ColumnStore.columnKey_eq (h : store.Holds records) {r : RecordId × ℕ}
    (hr : r ∈ store.live) (groupBy : List String) :
    store.columnKey groupBy r.2 = groupKey groupBy ((records.get r.1).getD ∅) := by
  rw [columnKey, groupKey]
  apply List.map_congr_left
  intro g _
  rw [store.cell_eq h hr]

/-- Row by row, the groups of the columns and those of the records stay alike. -/
theorem walk_alike (hh : store.Holds records) {groupBy : List String} {aggs : List Agg}
    {l : List (RecordId × ℕ)} (hl : ∀ r ∈ l, r ∈ store.live)
    (hn : ∀ r ∈ l, ∀ a ∈ aggs, ReadsNumbers a ((records.get r.1).getD ∅)) {g h : Groups}
    (hs : SameGroups aggs g h) :
    SameGroups aggs
      (l.foldl (fun groups r => upsertGroup (store.columnKey groupBy r.2) (freshAccs aggs)
        (fun accs => List.zipWith (fun a acc =>
          acc.observe a.countsRows (a.field.bind fun f => store.cell f r.2))
          (QuerySource.columnAggs aggs) accs) groups) g)
      ((l.map fun r => (r.1, (records.get r.1).getD ∅)).foldl (fun groups (r : Row) =>
        upsertGroup (groupKey groupBy r.2) (freshAccs aggs)
          (fun accs => List.zipWith (fun a acc => acc.take a r.2) aggs accs) groups) h) := by
  induction l generalizing g h with
  | nil => exact hs
  | cons r l ih =>
    have hr := hl r List.mem_cons_self
    rw [List.map_cons, List.foldl_cons, List.foldl_cons]
    apply ih (fun s hs => hl s (List.mem_cons_of_mem _ hs))
      (fun s hs => hn s (List.mem_cons_of_mem _ hs))
    rw [store.columnKey_eq hh hr]
    apply hs.upsert _ (.fresh aggs)
    intro xs ys hxy
    simp only [store.cell_eq hh hr]
    exact hxy.observe (hn r List.mem_cons_self)

theorem aggregate_alike (hh : store.Holds records) {groupBy : List String} {aggs : List Agg}
    {predicate : Option Expr} (ha : store.Aggregates records groupBy aggs predicate) :
    SameGroups aggs (store.aggregate groupBy (QuerySource.columnAggs aggs) predicate)
      (aggregateGroups (records.entries.filter fun r => keeps predicate r.2) groupBy aggs) := by
  have hfresh : (QuerySource.columnAggs aggs).map (fun _ => AggAcc.default) = freshAccs aggs := by
    rw [QuerySource.columnAggs, List.map_map]
    rfl
  have hkept : store.live.filter (fun r => store.admits predicate r.2) =
      store.live.filter fun r => keeps predicate ((records.get r.1).getD ∅) :=
    List.filter_congr fun r hr => store.admits_eq hh hr predicate
  have hentries := store.liveRows_eq hh ha.ascending
  rw [ColumnStore.liveRows] at hentries
  rw [ColumnStore.aggregate, hfresh, hkept, aggregateGroups, ← hentries, List.filter_map]
  apply walk_alike hh
  · intro r hr
    exact (List.mem_filter.mp hr).1
  · intro r hr
    obtain ⟨hlive, hk⟩ := List.mem_filter.mp hr
    exact ha.numbers _ ((store.mem_liveRows hh).mp (List.mem_map_of_mem hlive)) hk
  · exact .nil

theorem upsertGroup_ne_nil (key : List OrdValue) (fresh : List AggAcc)
    (f : List AggAcc → List AggAcc) (g : Groups) : upsertGroup key fresh f g ≠ [] := by
  cases g with
  | nil => exact List.cons_ne_nil _ _
  | cons a g =>
    rw [upsertGroup]
    cases cmpKeys key a.1 <;> exact List.cons_ne_nil _ _

theorem aggregateGroups_ne_nil {rows : List Row} (h : rows ≠ []) (groupBy : List String)
    (aggs : List Agg) : aggregateGroups rows groupBy aggs ≠ [] := by
  induction rows using List.reverseRecOn with
  | nil => exact absurd rfl h
  | append_singleton rows r _ =>
    rw [aggregateGroups, List.foldl_append]
    exact upsertGroup_ne_nil _ _ _ _

/-- An aggregate the columns answer is the aggregate of the rows that are kept. -/
theorem columnAggregate_eq {src : QuerySource} {collection : String}
    (hg : src.columns.get collection = some store) (hh : store.Holds records)
    {groupBy : List String} {aggs : List Agg} {predicate : Option Expr}
    (ha : store.Aggregates records groupBy aggs predicate) :
    src.columnAggregate collection groupBy aggs predicate =
      some (aggregate (records.entries.filter fun r => keeps predicate r.2) groupBy aggs) := by
  have hnonempty : ((aggregateGroups (records.entries.filter fun r => keeps predicate r.2)
      groupBy aggs).isEmpty && groupBy.isEmpty) = false := by
    rcases ha.inhabited with hgroup | ⟨r, hr, hk⟩
    · simp [List.isEmpty_iff, hgroup]
    · have hrows : records.entries.filter (fun r => keeps predicate r.2) ≠ [] :=
        List.ne_nil_of_mem (List.mem_filter.mpr ⟨hr, hk⟩)
      simp [List.isEmpty_iff, aggregateGroups_ne_nil hrows]
  simp only [QuerySource.columnAggregate, hg, aggregate, hnonempty, Bool.false_eq_true, if_false]
  exact congrArg some ((aggregate_alike hh ha).groupRows_eq groupBy)

end Adabt.Exec
