import Adabt.Core.Arith
import Adabt.Ir.Plan
import Adabt.Library.Reading
import Adabt.Storage.Cursor

/-! # The SQL front end

A lexer that walks the bytes of a statement and a recursive-descent parser over its
tokens. Each call of the parser that may call itself is given one less to spend than
its caller; what is spent grows with the number of tokens. -/

set_option autoImplicit false

namespace Adabt.Ir.Sql
open Adabt.Core Adabt.Library Adabt.Storage

structure SqlError where
  message : String
  /-- Where in the statement it was noticed, in bytes. -/
  offset : Option ℕ
  deriving DecidableEq, Repr

inductive Tok where
  | word (w : String)
  | str (s : String)
  | num (f : F64)
  | int (n : Int64)
  | sym (c : Char)
  /-- `<=`, `>=`, `<>`, `!=` -/
  | op2 (op : String)
  deriving DecidableEq, Repr

/-! ## The lexer -/

def isSpace (b : UInt8) : Bool :=
  b.toNat = 9 || b.toNat = 10 || b.toNat = 12 || b.toNat = 13 || b.toNat = 32

def isAlphabetic (b : UInt8) : Bool :=
  (65 ≤ b.toNat && b.toNat ≤ 90) || (97 ≤ b.toNat && b.toNat ≤ 122)

def isDigit (b : UInt8) : Bool := 48 ≤ b.toNat && b.toNat ≤ 57

def startsWord (b : UInt8) : Bool := isAlphabetic b || b.toNat = 95

def inWord (b : UInt8) : Bool := isAlphabetic b || isDigit b || b.toNat = 95

def quote : UInt8 := 39

def dash : UInt8 := 45

def point : UInt8 := 46

def newline : UInt8 := 10

/-- `b as char`. -/
def byteChar (b : UInt8) : Char := Char.ofNat b.toNat

/-- A string of one character for each byte. -/
def ofBytes (bs : Bytes) : String := String.ofList (bs.map byteChar)

/-- Skip white space and line comments; the flag says that a comment is being skipped. -/
def skipFrom : Bool → Bytes → Bytes
  | _, [] => []
  -- The newline that ends a comment is white space.
  | true, c :: rest => skipFrom (c ≠ newline) rest
  | false, c :: rest =>
    if isSpace c then skipFrom false rest
    else if c = dash ∧ rest.head? = some dash then skipFrom true rest
    else c :: rest

def skipWs (bs : Bytes) : Bytes := skipFrom false bs

/-- The digits in front, with one point among them, what follows, and whether there was a point. -/
def spanNumber : Bool → Bytes → Bytes × Bytes × Bool
  | seenDot, [] => ([], [], seenDot)
  | seenDot, d :: rest =>
    if isDigit d || (d = point && !seenDot) then
      let r := spanNumber (seenDot || d = point) rest
      (d :: r.1, r.2)
    else ([], d :: rest, seenDot)

def digitsValue (ds : Bytes) : ℕ := ds.foldl (fun n d => 10 * n + (d.toNat - 48)) 0

/-- The double nearest to a decimal; digits with a point always parse. -/
def parseF64 (text : Bytes) : F64 :=
  let whole := text.takeWhile (· ≠ point)
  let fraction := (text.dropWhile (· ≠ point)).drop 1
  F64.lit (digitsValue (whole ++ fraction)) (10 ^ fraction.length)

def parseI64 (text : Bytes) : Option Int64 :=
  if (digitsValue text : Int) ≤ Int64.maxValue.toInt then some (Int64.ofNat (digitsValue text)) else none

/-- What stands up to the closing quote, and what follows it. -/
def readString : Bytes → Option (Bytes × Bytes)
  | [] => none
  | d :: rest =>
    if d = quote then
      match rest with
      | [] => some ([], [])
      | e :: rest' =>
        -- Two quotes inside a string are one.
        if e = quote then (readString rest').map fun r => (quote :: r.1, r.2)
        else some ([], e :: rest')
    else (readString rest).map fun r => (d :: r.1, r.2)

def symbols : Bytes := [40, 41, 44, 42, 61, 60, 62, 46]

/-- The token that begins with `c`, and what follows it. -/
def nextTok (start : ℕ) (c : UInt8) (rest : Bytes) : Except SqlError (Tok × Bytes) :=
  if startsWord c then
    .ok (.word (ofBytes ((c :: rest).takeWhile inWord)), (c :: rest).dropWhile inWord)
  else if isDigit c then
    let number := spanNumber false (c :: rest)
    if number.2.2 then .ok (.num (parseF64 number.1), number.2.1)
    else match parseI64 number.1 with
      | some n => .ok (.int n, number.2.1)
      | none => .error ⟨"`" ++ ofBytes number.1 ++ "` does not fit an integer", some start⟩
  else if c = quote then
    match readString rest with
    | some (s, rest) => .ok (.str (ofBytes s), rest)
    | none => .error ⟨"unterminated string literal", some start⟩
  else if (c = 60 ∨ c = 62 ∨ c = 33) ∧ rest.head? = some 61 then
    .ok (.op2 (ofBytes [c, 61]), rest.tail)
  else if c = 60 ∧ rest.head? = some 62 then .ok (.op2 "<>", rest.tail)
  else if c ∈ symbols then .ok (.sym (byteChar c), rest)
  else .error ⟨"unexpected character `" ++ ofBytes [c] ++ "`", some start⟩

/-- Every token with the offset it begins at; `len` is the length of the statement. -/
def tokensFrom (len : ℕ) : ℕ → Bytes → Except SqlError (List (Tok × ℕ))
  | 0, _ => .ok []
  | fuel + 1, bs =>
    match skipWs bs with
    | [] => .ok []
    | c :: rest => do
      let start := len - (rest.length + 1)
      let (tok, rest) ← nextTok start c rest
      let toks ← tokensFrom len fuel rest
      return (tok, start) :: toks

/-- Every token takes a byte at least. -/
def tokens (sql : String) : Except SqlError (List (Tok × ℕ)) :=
  tokensFrom (utf8 sql).length ((utf8 sql).length + 1) (utf8 sql)

/-! ## The parser -/

/-- How parsing ends without a result. -/
inductive Stop where
  | error (e : SqlError)
  | spent
  deriving DecidableEq, Repr

abbrev Parser := Reading Stop (Tok × ℕ)

namespace Parser

def peek : Parser (Option Tok) := fun toks pos => .ok (toks[pos]?.map (·.1)) pos

/-- The token after the next. -/
def peekSecond : Parser (Option Tok) := fun toks pos => .ok (toks[pos + 1]?.map (·.1)) pos

def offset : Parser ℕ := fun toks pos =>
  .ok ((toks[pos]?.map (·.2)).getD ((toks.getLast?.map (·.2)).getD 0)) pos

def advance : Parser Unit := fun _ pos => .ok () (pos + 1)

def next : Parser (Option Tok) := do
  match ← peek with
  | some t => do
    advance
    return some t
  | none => return none

def failAt {α : Type} (message : String) (offset : ℕ) : Parser α :=
  throw (.error ⟨message, some offset⟩)

def failHere {α : Type} (message : String) : Parser α := do failAt message (← offset)

def fail {α : Type} (message : String) : Parser α := throw (.error ⟨message, none⟩)

end Parser

def lower (w : String) : List Char := w.toList.map Char.toLower

def upper (w : String) : String := String.ofList (w.toList.map Char.toUpper)

/-- `eq_ignore_ascii_case`. -/
def sameWord (w keyword : String) : Bool := lower w = lower keyword

/-- The token is this word, in whatever case. -/
def Tok.isWord (keyword : String) : Option Tok → Bool
  | some (.word w) => sameWord w keyword
  | _ => false

namespace Parser

def eatWord (keyword : String) : Parser Bool := do
  if Tok.isWord keyword (← peek) then
    advance
    return true
  else return false

def peekWord (keyword : String) : Parser Bool := do return Tok.isWord keyword (← peek)

def eatSym (c : Char) : Parser Bool := do
  if (← peek) = some (.sym c) then
    advance
    return true
  else return false

def expectWord (keyword : String) : Parser Unit := do
  if ← eatWord keyword then return () else failHere ("expected `" ++ upper keyword ++ "`")

def expectSym (c : Char) : Parser Unit := do
  if ← eatSym c then return () else failHere ("expected `" ++ String.singleton c ++ "`")

def identifier : Parser String := do
  let start ← offset
  match ← next with
  | some (.word w) => return w
  | _ => failAt "expected a name" start

/-- A column, with the name of its collection or without. -/
def column : Parser String := do
  let first ← identifier
  if ← eatSym '.' then
    let second ← identifier
    return first ++ "." ++ second
  else return first

/-- One item, and one more after each comma. -/
def commaList {α : Type} (item : Parser α) : ℕ → Parser (List α)
  | 0 => throw .spent
  | fuel + 1 => do
    let first ← item
    if ← eatSym ',' then
      let rest ← commaList item fuel
      return first :: rest
    else return [first]

/-! ### Predicates -/

def value : Parser Expr := do
  let start ← offset
  match ← peek with
  | some (.str s) => do
    advance
    return .literal (.str s)
  | some (.int n) => do
    advance
    return .literal (.i64 n)
  | some (.num f) => do
    advance
    return .literal (.f64 f)
  | some (.word w) =>
    if sameWord w "null" then do
      advance
      return .literal .null
    else if sameWord w "true" then do
      advance
      return .literal (.bool true)
    else if sameWord w "false" then do
      advance
      return .literal (.bool false)
    else return .field (← column)
  | _ => failAt "expected a value or column" start

def comparison (start : ℕ) : Parser CmpOp := do
  match ← next with
  | some (.sym c) =>
    if c = '=' then return .eq
    else if c = '<' then return .lt
    else if c = '>' then return .gt
    else failAt "expected a comparison, IS NULL, IN or LIKE" start
  | some (.op2 s) =>
    if s = "<=" then return .le
    else if s = ">=" then return .ge
    else if s = "<>" ∨ s = "!=" then return .ne
    else failAt ("unknown operator `" ++ s ++ "`") start
  | _ => failAt "expected a comparison, IS NULL, IN or LIKE" start

/-- `NOT IN` and `NOT LIKE` are `NOT` around the predicate. -/
def negateIf (negated : Bool) (e : Expr) : Expr := if negated then .not e else e

/-- The predicates that hold no other. -/
def simplePredicate (fuel : ℕ) : Parser Expr := do
  let start ← offset
  let lhs ← value
  if ← eatWord "is" then
    let negated ← eatWord "not"
    expectWord "null"
    return if negated then .isNotNull lhs else .isNull lhs
  else
    let negated ← eatWord "not"
    if ← eatWord "in" then
      expectSym '('
      let list ← commaList value fuel
      expectSym ')'
      return negateIf negated (.within lhs list)
    else if ← eatWord "like" then
      let start ← offset
      match ← next with
      | some (.str s) => return negateIf negated (.like lhs s)
      | _ => failAt "LIKE needs a string pattern" start
    else if negated then failAt "NOT must be followed by IN or LIKE here" start
    else
      let op ← comparison start
      let rhs ← value
      return .compare op lhs rhs

/-- One part more after each of these words. -/
def partsAfter (keyword : String) (part : Parser Expr) : ℕ → Parser (List Expr)
  | 0 => throw .spent
  | fuel + 1 => do
    if ← eatWord keyword then
      let e ← part
      let rest ← partsAfter keyword part fuel
      return e :: rest
    else return []

/-- `parse_or` and `parse_and`: the parts between the words, as they are when there is one. -/
def chain (keyword : String) (wrap : List Expr → Expr) (part : Parser Expr) (fuel : ℕ) :
    Parser Expr := do
  let first ← part
  let rest ← partsAfter keyword part fuel
  return if rest.isEmpty then first else wrap (first :: rest)

mutual

def parseOr : ℕ → Parser Expr
  | 0 => throw .spent
  | fuel + 1 => chain "or" .or (parseAnd fuel) fuel

def parseAnd : ℕ → Parser Expr
  | 0 => throw .spent
  | fuel + 1 => chain "and" .and (parseNot fuel) fuel

def parseNot : ℕ → Parser Expr
  | 0 => throw .spent
  | fuel + 1 => do
    if ← eatWord "not" then return .not (← parseNot fuel) else parsePredicate fuel

def parsePredicate : ℕ → Parser Expr
  | 0 => throw .spent
  | fuel + 1 => do
    if ← eatSym '(' then
      let inner ← parseOr fuel
      expectSym ')'
      return inner
    else simplePredicate fuel

end

/-! ### Statements -/

def aggKind (w : String) : Option AggKind :=
  if sameWord w "count" then some .count
  else if sameWord w "sum" then some .sum
  else if sameWord w "min" then some .min
  else if sameWord w "max" then some .max
  else if sameWord w "avg" then some .avg
  else none

def reserved (w : String) : Bool :=
  ["from", "where", "group", "order", "by", "limit", "join", "on", "left", "inner", "and", "or",
    "not", "is", "null", "as"].any (sameWord w)

def defaultOutput (kind : AggKind) : Option String → String
  | none => kind.asStr ++ "_star"
  | some f => kind.asStr ++ "_" ++ String.ofList (f.toList.map fun c => if c = '.' then '_' else c)

/-- The name after `AS`, or a name that no keyword could be, or one made of the aggregate. -/
def outputName (kind : AggKind) (field : Option String) : Parser String := do
  if ← eatWord "as" then identifier
  else match ← peek with
    | some (.word w) => if reserved w then return defaultOutput kind field else identifier
    | _ => return defaultOutput kind field

/-- An aggregate, if a parenthesis follows the name of one. -/
def aggregate : Parser (Option Agg) := do
  match ← peek with
  | some (.word w) =>
    match aggKind w with
    | none => return none
    | some kind =>
      if (← peekSecond) = some (.sym '(') then
        advance
        expectSym '('
        let field ← do if ← eatSym '*' then pure none else some <$> column
        expectSym ')'
        if kind ≠ .count ∧ field = none then
          failHere (upper w ++ "(*) is not meaningful; name a column")
        else
          let output ← outputName kind field
          return some ⟨kind, field, output⟩
      else return none
  | _ => return none

inductive Item where
  | star
  | agg (a : Agg)
  | column (name : String)

def item : Parser Item := do
  if ← eatSym '*' then return .star
  else match ← aggregate with
    | some a => return .agg a
    | none => return .column (← column)

/-- The kind of the join that is next, past the word itself. -/
def joinKind : Parser (Option JoinKind) := do
  if ← eatWord "left" then
    let _ ← eatWord "outer"
    expectWord "join"
    return some .left
  else if (← eatWord "inner") || (← peekWord "join") then
    expectWord "join"
    return some .inner
  else return none

/-- The name after the last dot. -/
def strip (s : String) : String := String.ofList (s.toList.reverse.takeWhile (· ≠ '.')).reverse

/-- At most one join. -/
def source : Parser LogicalOp := do
  let base ← identifier
  match ← joinKind with
  | none => return .scan base
  | some kind =>
    let right ← identifier
    expectWord "on"
    let l ← column
    expectSym '='
    let r ← column
    match ← joinKind with
    | none => return .join (.scan base) (.scan right) kind (strip l, strip r)
    | some _ => failHere "only one JOIN per query is supported"

def sortKey : Parser SortKey := do
  let field ← column
  if ← eatWord "desc" then return ⟨field, true⟩
  else
    let _ ← eatWord "asc"
    return ⟨field, false⟩

/-- A clause that need not be there. -/
def clause {α : Type} (keyword : String) (body : Parser α) : Parser (Option α) := do
  if ← eatWord keyword then return some (← body) else return none

def limitCount : Parser UInt64 := do
  let start ← offset
  match ← next with
  | some (.int n) =>
    if 0 ≤ n then return n.toUInt64 else failAt "LIMIT needs a non-negative integer" start
  | _ => failAt "LIMIT needs a non-negative integer" start

/-- What is selected, of the rows there are. -/
def selected (items : List Item) (groupBy : List String) (root : LogicalOp) : Parser LogicalOp :=
  let aggs := items.filterMap fun | .agg a => some a | _ => none
  let projection := items.filterMap fun | .column f => some f | _ => none
  let star := items.any fun | .star => true | _ => false
  if aggs ≠ [] ∨ groupBy ≠ [] then
    if aggs = [] then
      fail "GROUP BY without an aggregate has no meaning here; add COUNT/SUM/MIN/MAX/AVG"
    else return .aggregate root groupBy aggs
  else if star = false ∧ projection ≠ [] then return .project root projection
  else return root

def refused : List String := ["insert", "update", "delete", "create", "drop", "alter", "with"]

/-- The statements that are refused by name. -/
def refuse : Parser Unit := do
  match refused.find? (Tok.isWord · (← peek)) with
  | some keyword =>
    failHere (upper keyword ++ " is not supported; this front-end reads with SELECT only")
  | none => return ()

def atEnd : Parser Unit := do
  if (← peek).isSome then failHere "unexpected trailing input" else return ()

def select (fuel : ℕ) : Parser LogicalOp := do
  refuse
  expectWord "select"
  let items ← commaList item fuel
  expectWord "from"
  let root ← source
  let condition ← clause "where" (parseOr fuel)
  let root := condition.elim root root.filter
  let groupBy ← clause "group" do
    expectWord "by"
    commaList column fuel
  let root ← selected items (groupBy.getD []) root
  let keys ← clause "order" do
    expectWord "by"
    commaList sortKey fuel
  let root := keys.elim root root.sort
  let count ← clause "limit" limitCount
  let root := count.elim root root.limit
  atEnd
  return root

end Parser

/-- Each token lets the parser go four calls deeper. -/
def fuelFor (toks : List (Tok × ℕ)) : ℕ := 4 * toks.length + 4

def parseSelect (sql : String) : Except Stop LogicalOp :=
  match tokens sql with
  | .error e => .error (.error e)
  | .ok toks =>
    if toks.isEmpty then .error (.error ⟨"empty statement", none⟩)
    else (Parser.select (fuelFor toks)).runOn toks

end Adabt.Ir.Sql
