import Adabt.Ir.Expr

/-! # Compiled predicates

A predicate compiled to a flat instruction sequence over two operand stacks.
Short-circuit jumps are emitted with a placeholder target and patched once the
end of their fold is known. The indices an instruction carries are 32 bits wide
in the code; a program is shorter than that. -/

set_option autoImplicit false

namespace Adabt.Ir
open Adabt.Core Adabt.Library

inductive Op where
  | pushVal (v : Value)
  | pushMissing
  | loadField (i : ℕ)
  | pushTruth (t : Truth)
  | arith (op : ArithOp)
  | compare (op : CmpOp)
  | toTruth
  | not
  | isNull
  | isNotNull
  /-- Pop `n` list elements and then the needle. -/
  | within (n : ℕ)
  | like (i : ℕ)
  | foldAnd
  | foldOr
  | jumpIfFalse (target : ℕ)
  | jumpIfTrue (target : ℕ)
  deriving Repr

structure Program where
  ops : List Op
  /-- Field names, interned so that an instruction carries an index. -/
  fields : List String
  patterns : List (List Piece)

/-- Three-valued conjunction: false absorbs, otherwise any unknown wins. -/
def and3 : Truth → Truth → Truth
  | .false, _ => .false
  | _, .false => .false
  | .unknown, _ => .unknown
  | _, .unknown => .unknown
  | .true, .true => .true

def or3 : Truth → Truth → Truth
  | .true, _ => .true
  | _, .true => .true
  | .unknown, _ => .unknown
  | _, .unknown => .unknown
  | .false, .false => .false

namespace Program

def empty : Program := ⟨[], [], []⟩

/-! ## Emitting -/

def push (p : Program) (op : Op) : Program := { p with ops := p.ops ++ [op] }

def internField (p : Program) (name : String) : Program × ℕ :=
  if name ∈ p.fields then (p, p.fields.idxOf name)
  else ({ p with fields := p.fields ++ [name] }, p.fields.length)

def internPattern (p : Program) (pattern : String) : Program × ℕ :=
  let parsed := parseLikePattern pattern
  if parsed ∈ p.patterns then (p, p.patterns.idxOf parsed)
  else ({ p with patterns := p.patterns ++ [parsed] }, p.patterns.length)

/-- Compile in value position. -/
def emitValue (p : Program) : Expr → Program
  | .literal v => p.push (.pushVal v)
  | .field name => (p.internField name).1.push (.loadField (p.internField name).2)
  | .arith op lhs rhs => ((p.emitValue lhs).emitValue rhs).push (.arith op)
  | _ => p.push .pushMissing

def foldOp (isAnd : Bool) : Op := if isAnd then .foldAnd else .foldOr

def jumpOp (isAnd : Bool) (target : ℕ) : Op :=
  if isAnd then .jumpIfFalse target else .jumpIfTrue target

def retarget (target : ℕ) : Op → Op
  | .jumpIfFalse _ => .jumpIfFalse target
  | .jumpIfTrue _ => .jumpIfTrue target
  | op => op

/-- Point the jumps at `patches` past the last instruction. -/
def patch (p : Program) (patches : List ℕ) : Program :=
  { p with ops := patches.foldl (fun ops at' => ops.modify at' (retarget p.ops.length)) p.ops }

/-- The target of a jump that has not been patched. -/
def placeholder : ℕ := 2 ^ 32 - 1

mutual

/-- Compile in predicate position. -/
def emitPred (p : Program) : Expr → Program
  | .literal (.bool b) => p.push (.pushTruth (.ofBool b))
  | .literal .null => p.push (.pushTruth .unknown)
  | .literal v => (p.emitValue (.literal v)).push .toTruth
  | .field name => (p.emitValue (.field name)).push .toTruth
  | .arith op lhs rhs => (p.emitValue (.arith op lhs rhs)).push .toTruth
  | .compare op lhs rhs => ((p.emitValue lhs).emitValue rhs).push (.compare op)
  | .not inner => (p.emitPred inner).push .not
  | .isNull inner => (p.emitValue inner).push .isNull
  | .isNotNull inner => (p.emitValue inner).push .isNotNull
  | .within needle list =>
    (list.foldl emitValue (p.emitValue needle)).push (.within list.length)
  | .like text pattern =>
    ((p.emitValue text).internPattern pattern).1.push
      (.like ((p.emitValue text).internPattern pattern).2)
  | .and parts => p.emitFold parts true
  | .or parts => p.emitFold parts false

def emitFold (p : Program) : List Expr → Bool → Program
  | [], isAnd => p.push (.pushTruth (.ofBool isAnd))
  | part :: rest, isAnd =>
    let emitted := emitRest (p.emitPred part) rest isAnd
    emitted.1.patch emitted.2

/-- The operands after the first: a jump past them all, the operand, and its fold
into the accumulator. The positions of the jumps are returned. -/
def emitRest (p : Program) : List Expr → Bool → Program × List ℕ
  | [], _ => (p, [])
  | part :: rest, isAnd =>
    let jumped := p.push (jumpOp isAnd placeholder)
    let emitted := emitRest ((jumped.emitPred part).push (foldOp isAnd)) rest isAnd
    (emitted.1, p.ops.length :: emitted.2)

end

def compile (e : Expr) : Program := empty.emitPred e

/-! ## Running -/

/-- The two operand stacks, topmost first, and the next instruction. -/
structure Machine where
  pc : ℕ
  vals : List (Option Value)
  truths : List Truth

def start : Machine := ⟨0, [], []⟩

def popValue : List (Option Value) → Option Value × List (Option Value)
  | [] => (none, [])
  | v :: vals => (v, vals)

def popTruth : List Truth → Truth × List Truth
  | [] => (.unknown, [])
  | t :: truths => (t, truths)

namespace Machine

def pushValue (m : Machine) (v : Option Value) : Machine := ⟨m.pc + 1, v :: m.vals, m.truths⟩

/-- Replace the topmost value by a truth that depends on it. -/
def test (m : Machine) (f : Option Value → Truth) : Machine :=
  let v := popValue m.vals
  ⟨m.pc + 1, v.2, f v.1 :: m.truths⟩

/-- Replace the two topmost truths by one. -/
def foldTruths (m : Machine) (f : Truth → Truth → Truth) : Machine :=
  let b := popTruth m.truths
  let a := popTruth b.2
  ⟨m.pc + 1, m.vals, f a.1 b.1 :: a.2⟩

def jumpIf (m : Machine) (t : Truth) (target : ℕ) : Machine :=
  if m.truths.head? = some t then { m with pc := target } else { m with pc := m.pc + 1 }

end Machine

def applyArith (op : ArithOp) : Option Value → Option Value → Option Value
  | some a, some b => checkedArith op a b
  | _, _ => none

def step (p : Program) (rec : Record) (m : Machine) : Op → Machine
  | .pushVal v => m.pushValue (some v)
  | .pushMissing => m.pushValue none
  | .loadField i => m.pushValue ((rec.get (p.fields.getD i "")).map (·.1))
  | .pushTruth t => ⟨m.pc + 1, m.vals, t :: m.truths⟩
  | .arith op =>
    let b := popValue m.vals
    let a := popValue b.2
    ⟨m.pc + 1, applyArith op a.1 b.1 :: a.2, m.truths⟩
  | .compare op =>
    let b := popValue m.vals
    let a := popValue b.2
    ⟨m.pc + 1, a.2, compareValues op a.1 b.1 :: m.truths⟩
  | .toTruth => m.test truthOf
  | .not =>
    let t := popTruth m.truths
    ⟨m.pc + 1, m.vals, t.1.not :: t.2⟩
  | .isNull => m.test nullTest
  | .isNotNull => m.test fun v => (nullTest v).not
  | .within n =>
    let needle := popValue (m.vals.drop n)
    ⟨m.pc + 1, needle.2, withinValues needle.1 (m.vals.take n).reverse :: m.truths⟩
  | .like i => m.test (likeValue fun s => matchesFrom (p.patterns.getD i []) s.toList)
  | .foldAnd => m.foldTruths and3
  | .foldOr => m.foldTruths or3
  | .jumpIfFalse target => m.jumpIf .false target
  | .jumpIfTrue target => m.jumpIf .true target

/-- What an instruction needs: its operands on the stacks, and its index in range. -/
def Supplied (p : Program) (m : Machine) : Op → Prop
  | .pushVal _ | .pushMissing | .pushTruth _ => True
  | .loadField i => i < p.fields.length
  | .arith _ | .compare _ => 2 ≤ m.vals.length
  | .toTruth | .isNull | .isNotNull => 1 ≤ m.vals.length
  | .within n => n < m.vals.length
  | .like i => i < p.patterns.length ∧ 1 ≤ m.vals.length
  | .not => 1 ≤ m.truths.length
  | .foldAnd | .foldOr => 2 ≤ m.truths.length
  | .jumpIfFalse target | .jumpIfTrue target =>
    1 ≤ m.truths.length ∧ m.pc < target ∧ target ≤ p.ops.length

/-- The machine after so many instructions, or after the last one. -/
def exec (p : Program) (rec : Record) : ℕ → Machine → Machine
  | 0, m => m
  | n + 1, m =>
    match p.ops[m.pc]? with
    | none => m
    | some op => exec p rec n (p.step rec m op)

/-- Evaluate against one record. Jumps go forward, so no instruction runs twice. -/
def run (p : Program) (rec : Record) : Truth := (popTruth (p.exec rec p.ops.length start).truths).1

end Program

end Adabt.Ir
