import Adabt.Exec.Run
import Adabt.Ir.Reads

/-! # Planning

`decide` chooses an access path from the shape of a plan and the structures that
exist; `buildFrom` makes a physical plan of the decision and the literals of the
plan at hand. -/

set_option autoImplicit false

namespace Adabt.Exec
open Adabt.Core Adabt.Ir Adabt.Indexing

/-- What the planner is allowed to assume exists, per collection. -/
structure PlanContext where
  indexes : String → List (String × IndexKind)
  composite : String → List (List String)
  covering : String → List (String × List String × IndexKind)
  /-- The name of a partial index, the condition it is restricted to, its kind. -/
  partials : String → List (String × Expr × IndexKind)
  columnar : List String
  columnarFields : String → Option (List String)
  /-- Estimated distinct values per indexed field. -/
  cardinality : String → String → Option ℕ
  rowCounts : String → Option ℕ

inductive AccessDecision where
  | byId
  | byIds
  | fullScan
  | columnScan (fields : List String)
  | indexLookup (field : String) (kind : IndexKind)
  | compositeLookup (fields : List String)
  | coveringLookup (field : String) (needed : List String)
  | coveringRange (field : String) (needed : List String)
  | indexRange (field : String)
  | columnarTopK (key : String) (descending : Bool)
  deriving DecidableEq, Repr

structure PlanDecision where
  access : AccessDecision
  rationale : String
  deriving DecidableEq, Repr

/-! ## Questions about a predicate -/

mutual

/-- Equality of expressions, in which literals are equal as values. -/
def sameExpr : Expr → Expr → Bool
  | .literal v, e => match e with
    | .literal w => v.cmp w = .eq
    | _ => false
  | .field f, e => match e with
    | .field g => f = g
    | _ => false
  | .compare op lhs rhs, e => match e with
    | .compare op' lhs' rhs' => op = op' && sameExpr lhs lhs' && sameExpr rhs rhs'
    | _ => false
  | .and parts, e => match e with
    | .and parts' => sameExprs parts parts'
    | _ => false
  | .or parts, e => match e with
    | .or parts' => sameExprs parts parts'
    | _ => false
  | .not inner, e => match e with
    | .not inner' => sameExpr inner inner'
    | _ => false
  | .isNull inner, e => match e with
    | .isNull inner' => sameExpr inner inner'
    | _ => false
  | .isNotNull inner, e => match e with
    | .isNotNull inner' => sameExpr inner inner'
    | _ => false
  | .arith op lhs rhs, e => match e with
    | .arith op' lhs' rhs' => op = op' && sameExpr lhs lhs' && sameExpr rhs rhs'
    | _ => false
  | .within needle list, e => match e with
    | .within needle' list' => sameExpr needle needle' && sameExprs list list'
    | _ => false
  | .like text pattern, e => match e with
    | .like text' pattern' => sameExpr text text' && pattern = pattern'
    | _ => false

def sameExprs : List Expr → List Expr → Bool
  | [], es => es.isEmpty
  | e :: rest, es => match es with
    | [] => false
    | e' :: rest' => sameExpr e e' && sameExprs rest rest'

end

mutual

/-- Whether `predicate` is the condition, or has it among its conjuncts. -/
def implies (condition : Expr) : Expr → Bool
  | .and parts => sameExpr (.and parts) condition || impliesAny condition parts
  | e => sameExpr e condition

def impliesAny (condition : Expr) : List Expr → Bool
  | [] => false
  | e :: rest => implies condition e || impliesAny condition rest

end

/-- The literal the predicate first pins the field to. -/
def pinned (equalities : List (String × Value)) (field : String) : Option Value :=
  (equalities.find? fun c => c.1 = field).map (·.2)

/-- The literals of all the fields, when each is pinned. -/
def pinnedAll (equalities : List (String × Value)) : List String → Option (List Value)
  | [] => some []
  | f :: fields => do
    let v ← pinned equalities f
    let rest ← pinnedAll equalities fields
    return v :: rest

/-! ## Questions about what exists -/

namespace PlanContext

def empty : PlanContext :=
  ⟨fun _ => [], fun _ => [], fun _ => [], fun _ => [], [], fun _ => none, fun _ _ => none,
    fun _ => none⟩

/-- The kind of index to probe for an equality: a bitmap before a hash on a field
of few values, a hash before a bitmap elsewhere. -/
def indexFor (ctx : PlanContext) (collection field : String) : Option IndexKind :=
  let kinds := ((ctx.indexes collection).filter fun i => i.1 = field).map (·.2)
  let low := (ctx.cardinality collection field).any (· ≤ lowCardinalityKeyCount)
  let has := fun kind => if kind ∈ kinds then some kind else none
  let other := kinds.find? (· = .btree)
  if low then ((has .bitmap).or (has .hash)).or other
  else ((has .hash).or (has .bitmap)).or other

def coveringFor (ctx : PlanContext) (collection : String) (equalities : List (String × Value))
    (needed : Option (List String)) : Option (String × List String) := do
  let needed ← needed
  let found ← (ctx.covering collection).find? fun c =>
    (pinned equalities (coveringBase c.1)).isSome && needed.all (· ∈ c.2.1)
  return (coveringBase found.1, needed)

/-- A hash-backed covering index holds no order, and cannot walk a range. -/
def coveringRangeFor (ctx : PlanContext) (collection : String) (fields : List String)
    (needed : Option (List String)) : Option String := do
  let needed ← needed
  let found ← (ctx.covering collection).find? fun c =>
    c.2.2 = .btree && coveringBase c.1 ∈ fields && needed.all (· ∈ c.2.1)
  return coveringBase found.1

/-- A partial index on the field whose condition the predicate contains. -/
def partialFor (ctx : PlanContext) (collection field : String) (predicate : Expr) :
    Option (String × IndexKind) :=
  ((ctx.partials collection).find? fun p =>
    partialBase p.1 = field && implies p.2.1 predicate).map fun p => (p.1, p.2.2)

/-- The longest composite index all of whose fields are pinned. -/
def compositeFor (ctx : PlanContext) (collection : String) (equalities : List (String × Value)) :
    Option (List String) :=
  (ctx.composite collection).foldl (fun best fields =>
    if (pinnedAll equalities fields).isSome ∧ best.all fun b => b.length < fields.length
    then some fields else best) none

def hasColumnar (ctx : PlanContext) (collection : String) : Bool := collection ∈ ctx.columnar

def rangeIndexFor (ctx : PlanContext) (collection field : String) : Bool :=
  (ctx.indexes collection).any fun i => i.1 = field && i.2.supportsRange

/-- An unknown cardinality ranks above every known one. -/
def distinct (ctx : PlanContext) (collection field : String) : ℕ :=
  (ctx.cardinality collection field).getD (2 ^ 64 - 1)

/-- The pinned field with an index and the most distinct values, the first of
them on a tie. -/
def bestField (ctx : PlanContext) (collection : String) (predicate : Expr) :
    Option (ℕ × String) :=
  predicate.equalityConstraints.foldl (fun best c =>
    if ((ctx.partialFor collection c.1 predicate).isSome ∨ (ctx.indexFor collection c.1).isSome) ∧
      best.all fun b => b.1 < ctx.distinct collection c.1
    then some (ctx.distinct collection c.1, c.1) else best) none

/-- A scan beats the index when more than a third of a large collection matches. -/
def scanWins (ctx : PlanContext) (collection : String) (distinct : ℕ) : Bool :=
  (ctx.rowCounts collection).any fun rows =>
    if distinct = 2 ^ 64 - 1 ∨ distinct = 0 ∨ rows < 1000 then false
    else rows < max (rows / distinct) 1 * 3

end PlanContext

/-! ## Questions about a plan -/

/-- The predicate of a filter directly over a scan, if the plan has one. -/
def filterDirectlyOverScan : LogicalOp → Option Expr
  | .filter (.scan _) predicate => some predicate
  | .filter input _ | .project input _ | .sort input _ | .limit input _ | .aggregate input _ _ =>
    filterDirectlyOverScan input
  | _ => none

/-- A limit over a single-key sort over a bare scan, beneath any projections. -/
def topkOverScan : LogicalOp → Option (String × String × Bool × ℕ)
  | .project input _ => topkOverScan input
  | .limit (.sort (.scan collection) [key]) n =>
    some (collection, key.field, key.descending, n.toNat)
  | _ => none

/-! ## The decision -/

/-- The index a predicate over a scan is served by, if any. -/
def decideIndex (ctx : PlanContext) (collection : String) (predicate : Expr) :
    Option PlanDecision :=
  match ctx.compositeFor collection predicate.equalityConstraints with
  | some fields => some ⟨.compositeLookup fields,
      "equality on every field of the composite index (" ++ ", ".intercalate fields ++ ") on " ++
        collection⟩
  | none =>
    let single := (ctx.bestField collection predicate).bind fun best =>
      if ctx.scanWins collection best.1 then none
      else match ctx.partialFor collection best.2 predicate with
        | some (name, kind) => some ⟨.indexLookup name kind,
            "equality on " ++ collection ++ "." ++ best.2 ++ " served by a partial " ++ kind.asStr ++
              " index"⟩
        | none => (ctx.indexFor collection best.2).map fun kind => ⟨.indexLookup best.2 kind,
            "equality on " ++ collection ++ "." ++ best.2 ++ " served by " ++ kind.asStr ++ " index"⟩
    single.or (((predicate.rangeFields []).find? fun field =>
      ctx.rangeIndexFor collection field && (predicate.rangeConstraint field).isSome).map fun field =>
        ⟨.indexRange field,
          "range on " ++ collection ++ "." ++ field ++ " served by btree index"⟩)

/-- The walk to the leaf. -/
def decideLeaf (ctx : PlanContext) (needed : Option (List String)) (filterOverScan : Option Expr) :
    LogicalOp → PlanDecision
  | .getById .. => ⟨.byId, "direct lookup by record id"⟩
  | .getByIds .. => ⟨.byIds, "batched lookup of record ids"⟩
  | .scan collection =>
    let columnar := if ctx.hasColumnar collection then needed.map fun fields =>
        ⟨.columnScan fields,
          toString fields.length ++ " of the collection's fields are read; served columnar"⟩
      else none
    ((filterOverScan.bind (decideIndex ctx collection)).or columnar).getD
      ⟨.fullScan, "no applicable index; full scan"⟩
  | .filter (.scan collection) predicate =>
    decideLeaf ctx needed (some predicate) (.scan collection)
  | .filter input _ | .project input _ | .sort input _ | .limit input _ | .aggregate input _ _ =>
    decideLeaf ctx needed filterOverScan input
  | .join .. => ⟨.fullScan, ""⟩

/-- A covering index on a pinned field, else one on a ranged field. -/
def decideCovering (ctx : PlanContext) (collection : String) (needed : Option (List String))
    (predicate : Expr) : Option PlanDecision :=
  match ctx.coveringFor collection predicate.equalityConstraints needed with
  | some (field, needed) => some ⟨.coveringLookup field needed,
      "equality on " ++ collection ++ "." ++ field ++ " answered from a covering index (" ++
        ", ".intercalate needed ++ ")"⟩
  | none => (ctx.coveringRangeFor collection (predicate.rangeFields []) needed).map fun field =>
      ⟨.coveringRange field (needed.getD []),
        "range on " ++ collection ++ "." ++ field ++ " answered from a covering index"⟩

def decideTopK (ctx : PlanContext) (logical : LogicalOp) : Option PlanDecision := do
  let (collection, key, descending, _) ← topkOverScan logical
  if (ctx.columnarFields collection).any fun fields => key ∈ fields then
    some ⟨.columnarTopK key descending,
      "top-N by " ++ key ++ " read columnarly from " ++ collection ++ "; only the winners are fetched"⟩
  else none

/-- Choose an access path. -/
def decide (logical : LogicalOp) (ctx : PlanContext) : PlanDecision :=
  let needed := logical.requiredFields
  ((((filterDirectlyOverScan logical).bind (decideCovering ctx logical.collection needed)).or
    (decideTopK ctx logical)).getD (decideLeaf ctx needed none logical))

/-! ## The physical plan -/

/-- The access path under a filter, with the literals of this predicate. -/
def accessPath (collection : String) (predicate : Expr) : AccessDecision → Option PhysicalOp
  | .indexLookup field kind =>
    (pinned predicate.equalityConstraints (partialBase field)).map
      (.indexLookup collection field kind ·)
  | .coveringLookup field needed =>
    (pinned predicate.equalityConstraints field).map (.coveringLookup collection field · needed)
  | .compositeLookup fields =>
    (pinnedAll predicate.equalityConstraints fields).map fun parts =>
      .compositeLookup collection fields (.list parts)
  | .indexRange field =>
    (predicate.rangeConstraint field).map fun b => .indexRange collection field b.1 b.2
  | .coveringRange field needed =>
    (predicate.rangeConstraint field).map fun b => .coveringRange collection field needed b.1 b.2
  | _ => none

def scanPath (collection : String) : AccessDecision → PhysicalOp
  | .columnScan fields => .columnScan collection fields
  | _ => .heapScan collection

/-- A top-K decision names the whole subtree beneath the limit. -/
def topKPath (input : LogicalOp) (n : ℕ) (key : String) (descending : Bool) :
    Except Fault PhysicalOp :=
  match input with
  | .sort (.scan collection) _ => .ok (.columnarTopK collection key descending n)
  | .sort _ _ => .error (.panicked "a ColumnarTopK decision is only made over a bare Scan")
  | _ => .error (.panicked "a ColumnarTopK decision is only made over Limit(Sort(..))")

def buildNode (d : AccessDecision) : LogicalOp → Except Fault PhysicalOp
  | .getById collection id => .ok (.getById collection id)
  | .getByIds collection ids => .ok (.getByIds collection ids)
  | .scan collection => .ok (scanPath collection d)
  | .filter (.scan collection) predicate =>
    .ok (.filter ((accessPath collection predicate d).getD (scanPath collection d)) predicate)
  | .filter input predicate => (.filter · predicate) <$> buildNode d input
  | .project input fields => (.project · fields) <$> buildNode d input
  | .sort input keys => (.sort · keys) <$> buildNode d input
  | .limit input n => match d with
    | .columnarTopK key descending => topKPath input n.toNat key descending
    | d => (.limit · n.toNat) <$> buildNode d input
  | .aggregate input groupBy aggs => (.aggregate · groupBy aggs) <$> buildNode d input
  | .join .. => .error (.panicked
      "build_node reached a Join; callers must go through plan(), not build_node() directly")

def buildFrom (logical : LogicalOp) (decision : PlanDecision) : Except Fault PhysicalPlan := do
  let root ← buildNode decision.access logical
  return ⟨root, decision.rationale⟩

/-- Plan a query over one collection. -/
def plan (logical : LogicalOp) (ctx : PlanContext) : Except Fault PhysicalPlan :=
  buildFrom logical (decide logical ctx)

end Adabt.Exec
