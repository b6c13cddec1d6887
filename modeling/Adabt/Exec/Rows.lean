import Adabt.Core.Arith
import Adabt.Core.Record
import Adabt.Ir.Plan
import Adabt.Library.Selection

/-! # Rows, their order and their aggregates

Rows are sorted by the keys of a plan and then by record id. An aggregate walks
the rows once and keeps an accumulator for every group and output. -/

set_option autoImplicit false

namespace Adabt.Exec
open Adabt.Core Adabt.Ir Adabt.Library

abbrev Row := RecordId × Record

/-! ## Order -/

/-- A record missing a key sorts last in ascending order. -/
def compareField : Option OrdValue → Option OrdValue → Ordering
  | some x, some y => x.1.cmp y.1
  | none, none => .eq
  | none, some _ => .gt
  | some _, none => .lt

def directed (descending : Bool) (o : Ordering) : Ordering := if descending then o.swap else o

def compareRows (a b : Record) : List SortKey → Ordering
  | [] => .eq
  | k :: keys =>
    (directed k.descending (compareField (a.get k.field) (b.get k.field))).then (compareRows a b keys)

def rowOrder (keys : List SortKey) (a b : Row) : Ordering :=
  (compareRows a.2 b.2 keys).then (compare a.1 b.1)

def sortRows (keys : List SortKey) (rows : List Row) : List Row := sortBy (rowOrder keys) rows

/-- The first `k` rows under the order of a sort, found with a bounded heap. -/
def topK (rows : List Row) (keys : List SortKey) (k : ℕ) : List Row :=
  if k = 0 then [] else selectFirst (rowOrder keys) k rows

/-! ## Aggregates -/

structure AggAcc where
  count : UInt64
  sum : F64
  sawValue : Bool
  min : Option OrdValue
  max : Option OrdValue

def AggAcc.default : AggAcc := ⟨0, ⟨0⟩, false, none, none⟩

def asF64 : Value → Option F64
  | .i64 n => some (F64.ofInt n.toInt)
  | .u64 n => some (F64.ofInt n.toNat)
  | .f64 f => some f
  | _ => none

def nullValue : OrdValue := ⟨.null, trivial⟩

namespace AggAcc

def counted (acc : AggAcc) : AggAcc := { acc with count := acc.count + 1 }

def summed (acc : AggAcc) (n : F64) : AggAcc := { acc with sum := acc.sum.add n }

def seen (acc : AggAcc) : AggAcc := { acc with sawValue := true }

def lowered (acc : AggAcc) (v : OrdValue) : AggAcc :=
  if acc.min.all fun m => v.1.cmp m.1 = .lt then { acc with min := some v } else acc

def raised (acc : AggAcc) (v : OrdValue) : AggAcc :=
  if acc.max.all fun m => v.1.cmp m.1 = .gt then { acc with max := some v } else acc

/-- What one row adds. `COUNT(*)` counts rows, `COUNT(field)` values. -/
def take (acc : AggAcc) (a : Agg) (rec : Record) : AggAcc :=
  match a.kind with
  | .count => match a.field with
    | none => acc.counted
    | some f => if (rec.get f).any fun v => !v.1.isNull then acc.counted else acc
  | .sum | .avg => match (a.field.bind rec.get).bind fun v => asF64 v.1 with
    | some n => ((acc.summed n).counted).seen
    | none => acc
  | .min => match a.field.bind rec.get with
    | some v => if v.1.isNull then acc else acc.lowered v
    | none => acc
  | .max => match a.field.bind rec.get with
    | some v => if v.1.isNull then acc else acc.raised v
    | none => acc

def result (acc : AggAcc) : AggKind → OrdValue
  | .count => ⟨.u64 acc.count, trivial⟩
  | .sum => if acc.sawValue then ⟨.f64 acc.sum, trivial⟩ else nullValue
  | .avg =>
    if 0 < acc.count then ⟨.f64 (acc.sum.div (F64.ofInt acc.count.toNat)), trivial⟩ else nullValue
  | .min => acc.min.getD nullValue
  | .max => acc.max.getD nullValue

end AggAcc

abbrev Groups := List (List OrdValue × List AggAcc)

def cmpKeys (a b : List OrdValue) : Ordering := Value.cmpList (a.map (·.1)) (b.map (·.1))

/-- Update the accumulators of a key in the ordered map of groups. -/
def upsertGroup (key : List OrdValue) (fresh : List AggAcc) (f : List AggAcc → List AggAcc) :
    Groups → Groups
  | [] => [(key, f fresh)]
  | g :: rest => match cmpKeys key g.1 with
    | .lt => (key, f fresh) :: g :: rest
    | .eq => (g.1, f g.2) :: rest
    | .gt => g :: upsertGroup key fresh f rest

def freshAccs (aggs : List Agg) : List AggAcc := aggs.map fun _ => .default

def groupKey (groupBy : List String) (rec : Record) : List OrdValue :=
  groupBy.map fun g => (rec.get g).getD nullValue

def groupRecord (groupBy : List String) (aggs : List Agg) (g : List OrdValue × List AggAcc) :
    Record :=
  let keyed := (groupBy.zip g.1).foldl (fun rec p => rec.set p.1 p.2) ∅
  (aggs.zip g.2).foldl (fun rec p => rec.set p.1.output (p.2.result p.1.kind)) keyed

/-- Aggregate output has no natural record identity; ids are positional. -/
def groupRows (groupBy : List String) (aggs : List Agg) (groups : Groups) : List Row :=
  groups.zipIdx.map fun g => (Fin.ofNat _ g.2, groupRecord groupBy aggs g.1)

def aggregateGroups (rows : List Row) (groupBy : List String) (aggs : List Agg) : Groups :=
  rows.foldl (fun groups r => upsertGroup (groupKey groupBy r.2) (freshAccs aggs)
    (fun accs => List.zipWith (fun a acc => acc.take a r.2) aggs accs) groups) []

/-- An ungrouped aggregate over no rows still yields a row. -/
def aggregate (rows : List Row) (groupBy : List String) (aggs : List Agg) : List Row :=
  let groups := aggregateGroups rows groupBy aggs
  groupRows groupBy aggs
    (if groups.isEmpty && groupBy.isEmpty then [([], freshAccs aggs)] else groups)

end Adabt.Exec
