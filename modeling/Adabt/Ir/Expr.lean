import Adabt.Core.Arith
import Adabt.Core.Record

/-! # Predicate expressions

Null handling follows SQL: a comparison with a null or absent operand is
unknown, and only a definitely true predicate keeps a row. `evaluate` walks the
tree; it is the meaning a predicate has. -/

set_option autoImplicit false

namespace Adabt.Ir
open Adabt.Core Adabt.Library

inductive CmpOp where
  | eq
  | ne
  | lt
  | le
  | gt
  | ge
  deriving DecidableEq, Repr

namespace CmpOp

def asStr : CmpOp → String
  | eq => "="
  | ne => "!="
  | lt => "<"
  | le => "<="
  | gt => ">"
  | ge => ">="

def apply (op : CmpOp) (ord : Ordering) : Bool :=
  match op with
  | eq => ord = .eq
  | ne => ord ≠ .eq
  | lt => ord = .lt
  | le => ord ≠ .gt
  | gt => ord = .gt
  | ge => ord ≠ .lt

end CmpOp

inductive Expr where
  | literal (v : Value)
  | field (name : String)
  | compare (op : CmpOp) (lhs rhs : Expr)
  | and (parts : List Expr)
  | or (parts : List Expr)
  | not (inner : Expr)
  | isNull (inner : Expr)
  | isNotNull (inner : Expr)
  | arith (op : ArithOp) (lhs rhs : Expr)
  | within (needle : Expr) (list : List Expr)
  | like (text : Expr) (pattern : String)
  deriving Repr

/-- SQL three-valued logic. -/
inductive Truth where
  | true
  | false
  | unknown
  deriving DecidableEq, Repr

namespace Truth

def ofBool (b : Bool) : Truth := if b then .true else .false

def isTrue (t : Truth) : Bool := t = .true

def not : Truth → Truth
  | .true => .false
  | .false => .true
  | .unknown => .unknown

end Truth

/-! ## Patterns -/

/-- One unit of a parsed `LIKE` pattern. -/
inductive Piece where
  | literal (c : Char)
  | anyRun
  | anyOne
  deriving DecidableEq, Repr

def parsePieces : List Char → List Piece
  | [] => []
  | '%' :: rest => .anyRun :: parsePieces rest
  | '_' :: rest => .anyOne :: parsePieces rest
  -- A trailing backslash with nothing to escape is itself.
  | ['\\'] => [.literal '\\']
  | '\\' :: escaped :: rest => .literal escaped :: parsePieces rest
  | other :: rest => .literal other :: parsePieces rest

def parseLikePattern (pattern : String) : List Piece := parsePieces pattern.toList

/-- `rest` matches some suffix of the text. -/
def matchesSuffix (rest : List Char → Bool) : List Char → Bool
  | [] => rest []
  | c :: text => rest (c :: text) || matchesSuffix rest text

def matchesFrom : List Piece → List Char → Bool
  | [], text => text.isEmpty
  | .anyRun :: pattern, text => matchesSuffix (matchesFrom pattern) text
  | .anyOne :: pattern, text => match text with
    | [] => false
    | _ :: text => matchesFrom pattern text
  | .literal c :: pattern, text => match text with
    | [] => false
    | t :: text => t = c && matchesFrom pattern text

def likeMatches (text pattern : String) : Bool :=
  matchesFrom (parseLikePattern pattern) text.toList

/-! ## Evaluation -/

/-- A value in predicate position is its boolean value, or unknown. -/
def truthOf : Option Value → Truth
  | some (.bool b) => .ofBool b
  | _ => .unknown

def compareValues (op : CmpOp) : Option Value → Option Value → Truth
  | some a, some b =>
    if a.isNull || b.isNull then .unknown else .ofBool (op.apply (a.cmp b))
  | _, _ => .unknown

def nullTest : Option Value → Truth
  | none => .true
  | some v => .ofBool v.isNull

/-- The loop of `And`. -/
def conjunction (sawUnknown : Bool) : List Truth → Truth
  | [] => if sawUnknown then .unknown else .true
  | .false :: _ => .false
  | .unknown :: rest => conjunction true rest
  | .true :: rest => conjunction sawUnknown rest

/-- The loop of `Or`. -/
def disjunction (sawUnknown : Bool) : List Truth → Truth
  | [] => if sawUnknown then .unknown else .false
  | .true :: _ => .true
  | .unknown :: rest => disjunction true rest
  | .false :: rest => disjunction sawUnknown rest

/-- The loop of `In`: a null element could have been the match. -/
def membership (needle : Value) (sawUnknown : Bool) : List (Option Value) → Truth
  | [] => if sawUnknown then .unknown else .false
  | none :: rest => membership needle true rest
  | some v :: rest =>
    if v.isNull then membership needle true rest
    else if v.Eqv needle then .true
    else membership needle sawUnknown rest

def withinValues (needle : Option Value) (list : List (Option Value)) : Truth :=
  match needle.filter fun v => !v.isNull with
  | none => .unknown
  | some n => membership n false list

def likeValue (matched : String → Bool) : Option Value → Truth
  | some (.str s) => .ofBool (matched s)
  | _ => .unknown

namespace Expr

/-- The value of an expression, if it has one of its own. -/
def value (rec : Record) : Expr → Option Value
  | literal v => some v
  | field name => (rec.get name).map (·.1)
  | arith op lhs rhs => do
    let a ← value rec lhs
    let b ← value rec rhs
    checkedArith op a b
  | _ => none

mutual

def evaluate (rec : Record) : Expr → Truth
  | literal (.bool b) => .ofBool b
  | literal .null => .unknown
  | literal v => truthOf (value rec (literal v))
  | field name => truthOf (value rec (field name))
  | compare op lhs rhs => compareValues op (value rec lhs) (value rec rhs)
  | and parts => conjunction false (evaluateAll rec parts)
  | or parts => disjunction false (evaluateAll rec parts)
  | not inner => (evaluate rec inner).not
  | isNull inner => nullTest (value rec inner)
  | isNotNull inner => (nullTest (value rec inner)).not
  | arith op lhs rhs => truthOf (value rec (arith op lhs rhs))
  | within needle list => withinValues (value rec needle) (list.map (value rec))
  | like text pattern => likeValue (likeMatches · pattern) (value rec text)

def evaluateAll (rec : Record) : List Expr → List Truth
  | [] => []
  | part :: rest => evaluate rec part :: evaluateAll rec rest

end

/-- Whether the record passes. -/
def matches' (rec : Record) (e : Expr) : Bool := (e.evaluate rec).isTrue

end Expr

end Adabt.Ir
