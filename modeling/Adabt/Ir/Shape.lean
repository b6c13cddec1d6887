import Adabt.Ir.Plan
import Adabt.Storage.Cursor

/-! # Query shapes and query keys

A shape is a fingerprint of a plan with its literals erased; a key includes
them. Both are FNV-1a hashes, and the functions here return the bytes that are
fed to the hash. -/

set_option autoImplicit false

namespace Adabt.Ir
open Adabt.Core Adabt.Library
open Adabt.Storage (utf8)

namespace Fnv

def new : UInt64 := 0xcbf29ce484222325

def byte (h : UInt64) (b : UInt8) : UInt64 := (h ^^^ b.toUInt64) * 0x1000000001b3

def bytes (h : UInt64) (bs : Bytes) : UInt64 := bs.foldl byte h

/-- What `Fnv::str` feeds: the string and a terminating zero byte. -/
def str (s : String) : Bytes := utf8 s ++ [0]

/-- What `Fnv::usize` feeds. -/
def usize (n : ℕ) : Bytes := leBytes 8 n

end Fnv

open Fnv (str usize)

def arithOpStr : ArithOp → String
  | .add => "add"
  | .sub => "sub"
  | .mul => "mul"
  | .div => "div"

/-- A field name, or `*` where an aggregate has none. -/
def aggField (a : Agg) : String := a.field.getD "*"

/-! ## Shapes -/

mutual

def hashExpr : Expr → Bytes
  | .literal _ => str "lit"
  | .field f => str "field" ++ str f
  | .compare op lhs rhs => str "cmp" ++ str op.asStr ++ hashExpr lhs ++ hashExpr rhs
  | .and parts => str "and" ++ usize parts.length ++ hashExprs parts
  | .or parts => str "or" ++ usize parts.length ++ hashExprs parts
  | .not inner => str "not" ++ hashExpr inner
  | .isNull inner => str "isnull" ++ hashExpr inner
  | .isNotNull inner => str "isnotnull" ++ hashExpr inner
  | .arith op lhs rhs => str "arith" ++ str (arithOpStr op) ++ hashExpr lhs ++ hashExpr rhs
  | .within needle list => str "in" ++ hashExpr needle ++ usize list.length
  | .like text _ => str "like" ++ hashExpr text

def hashExprs : List Expr → Bytes
  | [] => []
  | e :: es => hashExpr e ++ hashExprs es

end

def hashOp : LogicalOp → Bytes
  | .getById collection _ => str "get_by_id" ++ str collection ++ usize 0
  | .getByIds collection ids =>
    str "get_by_ids" ++ str collection ++ usize ids.length ++ usize 0
  | .scan collection => str "scan" ++ str collection ++ usize 0
  | .filter input predicate => str "filter" ++ hashExpr predicate ++ usize 1 ++ hashOp input
  | .project input fields => str "project" ++ fields.flatMap str ++ usize 1 ++ hashOp input
  | .sort input keys =>
    str "sort" ++ keys.flatMap (fun k => str k.field ++ [k.descending.toUInt8]) ++
      usize 1 ++ hashOp input
  | .limit input _ => str "limit" ++ str "n" ++ usize 1 ++ hashOp input
  | .aggregate input groupBy aggs =>
    str "aggregate" ++ groupBy.flatMap str ++
      aggs.flatMap (fun a => str a.kind.asStr ++ str (aggField a)) ++ usize 1 ++ hashOp input
  | .join left right kind on =>
    str "join" ++ str kind.asStr ++ str on.1 ++ str on.2 ++ usize 2 ++ hashOp left ++ hashOp right

abbrev QueryShape := UInt64

/-- Zero is reserved for the unknown shape. -/
def QueryShape.of (op : LogicalOp) : QueryShape :=
  let h := Fnv.bytes Fnv.new (hashOp op)
  if h = 0 then 1 else h

/-! ## Keys -/

mutual

def hashValue : Value → Bytes
  | .null => str "null"
  | .bool b => str "bool" ++ [b.toUInt8]
  | .i64 n => str "i64" ++ leBytes 8 n.toUInt64.toNat
  | .decimal units scale => str "decimal" ++ leBytes 16 units.toNat ++ [scale]
  | .timestamp t => str "timestamp" ++ leBytes 8 t.toUInt64.toNat
  | .u64 n => str "u64" ++ leBytes 8 n.toNat
  | .f64 f => str "f64" ++ leBytes 8 f.canonical
  | .str s => str "str" ++ str s
  | .bytes b => str "bytes" ++ b
  | .list items => str "list" ++ usize items.length ++ hashValues items
  | .map m => str "map" ++ usize m.length ++ hashEntries m

def hashValues : List Value → Bytes
  | [] => []
  | v :: vs => hashValue v ++ hashValues vs

def hashEntries : List (String × Value) → Bytes
  | [] => []
  | (k, v) :: es => str k ++ hashValue v ++ hashEntries es

end

mutual

def hashExprWithLiterals : Expr → Bytes
  | .literal v => str "lit" ++ hashValue v
  | .field f => str "field" ++ str f
  | .compare op lhs rhs =>
    str "cmp" ++ str op.asStr ++ hashExprWithLiterals lhs ++ hashExprWithLiterals rhs
  | .and parts => str "and" ++ usize parts.length ++ hashExprsWithLiterals parts
  | .or parts => str "or" ++ usize parts.length ++ hashExprsWithLiterals parts
  | .not inner => str "not" ++ hashExprWithLiterals inner
  | .isNull inner => str "isnull" ++ hashExprWithLiterals inner
  | .isNotNull inner => str "isnotnull" ++ hashExprWithLiterals inner
  | .arith op lhs rhs =>
    str "arith" ++ str (arithOpStr op) ++ hashExprWithLiterals lhs ++ hashExprWithLiterals rhs
  | .within needle list =>
    str "in" ++ hashExprWithLiterals needle ++ usize list.length ++ hashExprsWithLiterals list
  | .like text pattern => str "like" ++ hashExprWithLiterals text ++ str pattern

def hashExprsWithLiterals : List Expr → Bytes
  | [] => []
  | e :: es => hashExprWithLiterals e ++ hashExprsWithLiterals es

end

/-- A length is written before the elements of some lists; the names of a
projection, the keys of a sort and both lists of an aggregate have none. -/
def hashOpWithLiterals : LogicalOp → Bytes
  | .getById collection id => str "get_by_id" ++ str collection ++ leBytes 8 id ++ usize 0
  | .getByIds collection ids =>
    str "get_by_ids" ++ str collection ++ usize ids.length ++
      ids.flatMap (fun id : RecordId => leBytes 8 id.val) ++ usize 0
  | .scan collection => str "scan" ++ str collection ++ usize 0
  | .filter input predicate =>
    str "filter" ++ hashExprWithLiterals predicate ++ usize 1 ++ hashOpWithLiterals input
  | .project input fields =>
    str "project" ++ fields.flatMap str ++ usize 1 ++ hashOpWithLiterals input
  | .sort input keys =>
    str "sort" ++ keys.flatMap (fun k => str k.field ++ [k.descending.toUInt8]) ++
      usize 1 ++ hashOpWithLiterals input
  | .limit input n => str "limit" ++ usize n.toNat ++ usize 1 ++ hashOpWithLiterals input
  | .aggregate input groupBy aggs =>
    str "aggregate" ++ groupBy.flatMap str ++
      aggs.flatMap (fun a => str a.kind.asStr ++ str (aggField a) ++ str a.output) ++
      usize 1 ++ hashOpWithLiterals input
  | .join left right kind on =>
    str "join" ++ str kind.asStr ++ str on.1 ++ str on.2 ++ usize 2 ++
      hashOpWithLiterals left ++ hashOpWithLiterals right

abbrev QueryKey := UInt64

def QueryKey.of (op : LogicalOp) : QueryKey := Fnv.bytes Fnv.new (hashOpWithLiterals op)

end Adabt.Ir
