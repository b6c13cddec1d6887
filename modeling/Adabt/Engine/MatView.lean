import Adabt.Exec.Groups

/-! # Materialised views

A view keeps, for every group of the records, how many rows are in it and what
its aggregates have added up, and is maintained by adding and taking away. How
much went through a sum is charged against the range in which it is exact. -/

set_option autoImplicit false

namespace Adabt.Engine
open Adabt.Core Adabt.Ir Adabt.Exec Adabt.Library

/-- `MIN` and `MAX` cannot be maintained under deletion. -/
def isMaintainable (aggs : List Agg) : Bool :=
  !aggs.isEmpty && aggs.all fun a => a.kind = .count ∨ a.kind = .sum ∨ a.kind = .avg

/-- The largest integer magnitude an `f64` represents without rounding. -/
def exactIntegerLimit : F64 := F64.ofInt (2 ^ 53)

structure Acc where
  count : ℕ
  sum : F64
  sawValue : Bool
  deriving DecidableEq

def Acc.default : Acc := ⟨0, ⟨0⟩, false⟩

/-- A group exists as long as a row is in it, whatever its counts say. -/
structure Group where
  rows : ℕ
  accs : List Acc
  deriving DecidableEq

/-- Whether an aggregate can still be trusted, and how much of its exactness was spent. -/
structure Budget where
  exact : Bool
  spent : F64
  deriving DecidableEq

structure View where
  groupBy : List String
  aggs : List Agg
  groups : List (List OrdValue × Group)
  budgets : List Budget

def Acc.add (acc : Acc) : Option F64 → Acc
  | some v => ⟨acc.count + 1, acc.sum.add v, true⟩
  | none => acc

/-- That a value was seen is not taken back. -/
def Acc.takeAway (acc : Acc) : Option F64 → Acc
  | some v => ⟨acc.count - 1, acc.sum.sub v, acc.sawValue⟩
  | none => acc

/-- Both directions charge: a subtraction is as much an operation as an addition. -/
def Budget.charge (b : Budget) (v : F64) : Budget :=
  if !b.exact then b
  else if !v.isFinite || !v.isWhole then { b with exact := false }
  else
    let spent := b.spent.add v.abs
    ⟨!spent.atLeast exactIntegerLimit, spent⟩

/-- What a record contributes to an aggregate: nothing, if it is a null in a counted
field or not a number in a summed one. -/
def contribution (a : Agg) (rec : Record) : Option F64 :=
  match a.kind, a.field with
  | .count, none => some ⟨0⟩
  | .count, some f => ((rec.get f).filter fun v => !v.1.isNull).map fun _ => ⟨0⟩
  | _, some f => (rec.get f).bind fun v => asF64 v.1
  | _, none => none

/-- Counts are not charged. -/
def Budget.after (b : Budget) (a : Agg) (rec : Record) : Budget :=
  match contribution a rec with
  | some v => if a.kind = .count then b else b.charge v
  | none => b

namespace View

def new (groupBy : List String) (aggs : List Agg) : View :=
  ⟨groupBy, aggs, [], aggs.map fun _ => ⟨true, ⟨0⟩⟩⟩

/-- One inexact accumulator disqualifies the whole view. -/
def isExact (view : View) : Bool := view.budgets.all (·.exact)

def charged (view : View) (rec : Record) : List Budget :=
  List.zipWith (fun a b => b.after a rec) view.aggs view.budgets

def insert (view : View) (rec : Record) : View :=
  { view with
    groups := upsert cmpKeys (groupKey view.groupBy rec) ⟨0, view.aggs.map fun _ => .default⟩
      (fun g => ⟨g.rows + 1,
        List.zipWith (fun a acc => acc.add (contribution a rec)) view.aggs g.accs⟩) view.groups
    budgets := view.charged rec }

/-- A group with no rows is not a group with zero in it. -/
def remove (view : View) (rec : Record) : View :=
  let key := groupKey view.groupBy rec
  if view.groups.any fun g => cmpKeys key g.1 = .eq then
    { view with
      groups := revise cmpKeys key (fun g =>
        if g.rows - 1 = 0 then none
        else some ⟨g.rows - 1,
          List.zipWith (fun a acc => acc.takeAway (contribution a rec)) view.aggs g.accs⟩)
        view.groups
      budgets := view.charged rec }
  else view

def update (view : View) (old new : Record) : View := (view.remove old).insert new

/-- The answer for one aggregate; extremes are never materialised. -/
def result (a : Agg) (acc : Acc) : OrdValue :=
  match a.kind with
  | .count => ⟨.u64 (UInt64.ofNat acc.count), trivial⟩
  | .sum => if acc.sawValue then ⟨.f64 acc.sum, trivial⟩ else nullValue
  | .avg =>
    if 0 < UInt64.ofNat acc.count then
      ⟨.f64 (acc.sum.div (F64.ofInt (UInt64.ofNat acc.count).toNat)), trivial⟩
    else nullValue
  | .min => nullValue
  | .max => nullValue

def row (view : View) (key : List OrdValue) (accs : List Acc) : Record :=
  let keyed := (view.groupBy.zip key).foldl (fun rec p => rec.set p.1 p.2) ∅
  (view.aggs.zip accs).foldl (fun rec p => rec.set p.1.output (result p.1 p.2)) keyed

/-- An ungrouped aggregate over no rows is still one row saying zero. -/
def rows (view : View) : List Row :=
  if view.groups.isEmpty && view.groupBy.isEmpty then
    [(0, view.row [] (view.aggs.map fun _ => .default))]
  else (view.groups.map fun g => view.row g.1 g.2.accs).zipIdx.map fun p => (Fin.ofNat _ p.2, p.1)

/-- A view of the records there are. -/
def build (groupBy : List String) (aggs : List Agg) (records : OrdMap RecordId Record) : View :=
  records.values.foldl insert (.new groupBy aggs)

end View

/-! ## Runs -/

/-- What happens to the records of the collection. -/
inductive Change where
  | insert (id : RecordId) (rec : Record)
  | remove (id : RecordId)
  | update (id : RecordId) (rec : Record)

/-- The records, and the view that is kept of them. -/
structure Viewed where
  records : OrdMap RecordId Record
  view : View

/-- A record is inserted under an id without one, and removed or updated under an id
that has one. -/
def Change.apply (c : Change) (s : Viewed) : Viewed :=
  match c with
  | .insert id rec => match s.records.get id with
    | some _ => s
    | none => ⟨s.records.insert id rec, s.view.insert rec⟩
  | .remove id => match s.records.get id with
    | some old => ⟨s.records.erase id, s.view.remove old⟩
    | none => s
  | .update id rec => match s.records.get id with
    | some old => ⟨s.records.insert id rec, s.view.update old rec⟩
    | none => s

end Adabt.Engine
