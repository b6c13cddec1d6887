import Adabt.Core.Error
import Adabt.Ir.Expr

/-! # Logical plans

A logical plan says what is wanted. Every operator has at most one child, a
join apart, which the planner refuses. -/

set_option autoImplicit false

namespace Adabt.Ir
open Adabt.Core

inductive AggKind where
  | count
  | sum
  | min
  | max
  | avg
  deriving DecidableEq, Repr

def AggKind.asStr : AggKind → String
  | count => "count"
  | sum => "sum"
  | min => "min"
  | max => "max"
  | avg => "avg"

/-- A field is named by every aggregate but `Count`, which may do without. -/
structure Agg where
  kind : AggKind
  field : Option String
  output : String
  deriving DecidableEq, Repr

structure SortKey where
  field : String
  descending : Bool
  deriving DecidableEq, Repr

inductive JoinKind where
  | inner
  | left
  deriving DecidableEq, Repr

def JoinKind.asStr : JoinKind → String
  | inner => "inner"
  | left => "left"

inductive LogicalOp where
  | getById (collection : String) (id : RecordId)
  | getByIds (collection : String) (ids : List RecordId)
  | scan (collection : String)
  | filter (input : LogicalOp) (predicate : Expr)
  | project (input : LogicalOp) (fields : List String)
  | sort (input : LogicalOp) (keys : List SortKey)
  | limit (input : LogicalOp) (n : UInt64)
  | aggregate (input : LogicalOp) (groupBy : List String) (aggs : List Agg)
  | join (left right : LogicalOp) (kind : JoinKind) (on : String × String)
  deriving Repr

namespace LogicalOp

def name : LogicalOp → String
  | getById .. => "get_by_id"
  | getByIds .. => "get_by_ids"
  | scan .. => "scan"
  | filter .. => "filter"
  | project .. => "project"
  | sort .. => "sort"
  | limit .. => "limit"
  | aggregate .. => "aggregate"
  | join .. => "join"

def children : LogicalOp → List LogicalOp
  | getById .. | getByIds .. | scan .. => []
  | filter input _ | project input _ | sort input _ | limit input _ | aggregate input _ _ => [input]
  | join left right _ _ => [left, right]

def containsJoin : LogicalOp → Bool
  | getById .. | getByIds .. | scan .. => false
  | filter input _ | project input _ | sort input _ | limit input _ | aggregate input _ _ =>
    input.containsJoin
  | join .. => true

/-- Every collection the plan reads, leaves first. -/
def sources : LogicalOp → List String
  | getById collection _ | getByIds collection _ | scan collection => [collection]
  | filter input _ | project input _ | sort input _ | limit input _ | aggregate input _ _ =>
    input.sources
  | join left right _ _ => left.sources ++ right.sources

/-- The collection of a plan that reads one. -/
def collection (op : LogicalOp) : String := op.sources.headD ""

end LogicalOp

end Adabt.Ir
