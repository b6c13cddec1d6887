import Adabt.Ir.SqlText

/-! # Predicates printed as SQL

`sqlTokens` prints a predicate with every part of it in parentheses, and the parser
reads those tokens back as that predicate. `Reads` says so of each step of the parser,
with what may follow the tokens it takes. -/

set_option autoImplicit false

namespace Adabt.Ir.Sql
open Adabt.Core Adabt.Library Adabt.Storage

/-! ## Printing -/

def opTok : CmpOp → Tok
  | .eq => .sym '='
  | .ne => .op2 "<>"
  | .lt => .sym '<'
  | .le => .op2 "<="
  | .gt => .sym '>'
  | .ge => .op2 ">="

/-- The token of a column or a literal. -/
def operandTok : Expr → Tok
  | .field name => .word name
  | .literal (.str s) => .str s
  | .literal (.i64 n) => .int n
  | .literal (.f64 f) => .num f
  | .literal (.bool true) => .word "TRUE"
  | .literal (.bool false) => .word "FALSE"
  | _ => .word "NULL"

def enclosed (ts : List Tok) : List Tok := .sym '(' :: ts ++ [.sym ')']

/-- The tokens, with a comma before each. -/
def afterCommas (list : List Expr) : List Tok := list.flatMap fun e => [.sym ',', operandTok e]

mutual

def sqlTokens : Expr → List Tok
  | .compare op lhs rhs => [operandTok lhs, opTok op, operandTok rhs]
  | .and parts => (partTokens "AND" parts).tail
  | .or parts => (partTokens "OR" parts).tail
  | .not inner => .word "NOT" :: enclosed (sqlTokens inner)
  | .isNull inner => [operandTok inner, .word "IS", .word "NULL"]
  | .isNotNull inner => [operandTok inner, .word "IS", .word "NOT", .word "NULL"]
  | .within needle list =>
    operandTok needle :: .word "IN" :: enclosed (afterCommas list).tail
  | .like text pattern => [operandTok text, .word "LIKE", .str pattern]
  | e => [operandTok e]

/-- The parts, each in parentheses and with the word before it. -/
def partTokens (keyword : String) : List Expr → List Tok
  | [] => []
  | p :: ps => .word keyword :: enclosed (sqlTokens p) ++ partTokens keyword ps

end

/-- The words that are no column where a predicate may begin or a value stand. -/
def ColumnName (name : String) : Prop :=
  ∀ keyword ∈ ["not", "null", "true", "false"], sameWord name keyword = false

instance ColumnName.decidable (name : String) : Decidable (ColumnName name) :=
  List.decidableBAll _ _

inductive Operand : Expr → Prop where
  | column {name : String} (h : ColumnName name) : Operand (.field name)
  | str (s : String) : Operand (.literal (.str s))
  | int (n : Int64) : Operand (.literal (.i64 n))
  | num (f : F64) : Operand (.literal (.f64 f))
  | bool (b : Bool) : Operand (.literal (.bool b))
  | null : Operand (.literal .null)

/-- The predicates that the grammar has a text for. -/
inductive Printable : Expr → Prop where
  | compare (op : CmpOp) {lhs rhs : Expr} (hl : Operand lhs) (hr : Operand rhs) :
      Printable (.compare op lhs rhs)
  | and {parts : List Expr} (htwo : 2 ≤ parts.length) (hparts : ∀ p ∈ parts, Printable p) :
      Printable (.and parts)
  | or {parts : List Expr} (htwo : 2 ≤ parts.length) (hparts : ∀ p ∈ parts, Printable p) :
      Printable (.or parts)
  | not {inner : Expr} (h : Printable inner) : Printable (.not inner)
  | isNull {inner : Expr} (h : Operand inner) : Printable (.isNull inner)
  | isNotNull {inner : Expr} (h : Operand inner) : Printable (.isNotNull inner)
  | within {needle : Expr} {list : List Expr} (h : Operand needle) (hne : list ≠ [])
      (hlist : ∀ e ∈ list, Operand e) : Printable (.within needle list)
  | like {text : Expr} (h : Operand text) (pattern : String) : Printable (.like text pattern)

/-- `SELECT * FROM base WHERE e`. -/
def selectTokens (base : String) (e : Expr) : List Tok :=
  .word "SELECT" :: .sym '*' :: .word "FROM" :: .word base :: .word "WHERE" :: sqlTokens e

theorem partTokens_eq (keyword : String) (parts : List Expr) : partTokens keyword parts =
    parts.flatMap fun p => .word keyword :: enclosed (sqlTokens p) := by
  induction parts with
  | nil => rw [partTokens, List.flatMap_nil]
  | cons p ps ih => rw [partTokens, ih, List.flatMap_cons]

/-! ## Steps of the parser -/

/-- The parser takes these tokens, where `after` holds of those that follow. -/
def Reads {α : Type} (after : List Tok → Prop) (x : Parser α) (ts : List Tok) (a : α) : Prop :=
  Reading.Takes Prod.fst after x ts a

def Anything (_ : List Tok) : Prop := True

def NotWord (keyword : String) (rest : List Tok) : Prop := Tok.isWord keyword rest.head? = false

def NotSym (c : Char) (rest : List Tok) : Prop := rest.head? ≠ some (.sym c)

theorem notSym_cons {c : Char} {t : Tok} (h : t ≠ .sym c) (rest : List Tok) : NotSym c (t :: rest) :=
  fun heq => h (Option.some.inj heq)

namespace Parser

variable {α β : Type} {after after' : List Tok → Prop} {f : Option Tok → Parser β} {b : β}
  {ts : List Tok}

theorem peek_left {toks : List (Tok × ℕ)} {pos : ℕ} {left : List Tok}
    (h : Reading.leftOf Prod.fst toks pos = left) : peek toks pos = .ok left.head? pos := by
  have hfirst : (toks[pos + 0]?).map Prod.fst = (Reading.leftOf Prod.fst toks pos)[0]? :=
    Reading.getElem?_left 0
  rw [h, Nat.add_zero, ← List.head?_eq_getElem?] at hfirst
  rw [← hfirst]
  rfl

/-- What comes next decides how to go on. -/
theorem reads_peek (h : ∀ rest, after rest → Reads (· = rest) (f (ts ++ rest).head?) ts b) :
    Reads after (peek >>= f) ts b := fun toks pos rest hleft hrest => by
  rw [Reading.bind_ok (peek_left hleft)]
  exact h rest hrest toks pos rest hleft rfl

theorem reads_offset {f : ℕ → Parser β} (h : ∀ n, Reads after (f n) ts b) :
    Reads after (offset >>= f) ts b := fun toks pos rest hleft hrest =>
  h _ toks pos rest hleft hrest

theorem reads_advance (t : Tok) : Reads Anything advance [t] () := fun _ _ _ _ _ => rfl

theorem reads_next (t : Tok) : Reads Anything next [t] (some t) :=
  reads_peek fun _ _ => (reads_advance t).last (Reading.takes_pure (some t)) fun _ _ => trivial

theorem eatWord_hit {w keyword : String} (h : sameWord w keyword = true) :
    Reads Anything (eatWord keyword) [.word w] true :=
  reads_peek fun rest _ => by
    have hword : Tok.isWord keyword ([Tok.word w] ++ rest).head? = true := h
    rw [if_pos hword]
    exact (reads_advance _).last (Reading.takes_pure true) fun _ _ => trivial

theorem eatWord_miss (keyword : String) : Reads (NotWord keyword) (eatWord keyword) [] false :=
  reads_peek fun rest hrest => by
    have hword : ¬Tok.isWord keyword ([] ++ rest).head? = true := Bool.eq_false_iff.mp hrest
    rw [if_neg hword]
    exact Reading.takes_pure false

theorem peekWord_miss (keyword : String) : Reads (NotWord keyword) (peekWord keyword) [] false :=
  reads_peek fun rest hrest => by
    have hword : Tok.isWord keyword ([] ++ rest).head? = false := hrest
    rw [hword]
    exact Reading.takes_pure false

theorem eatSym_hit (c : Char) : Reads Anything (eatSym c) [.sym c] true :=
  reads_peek fun rest _ => by
    have hsym : ([Tok.sym c] ++ rest).head? = some (.sym c) := rfl
    rw [if_pos hsym]
    exact (reads_advance _).last (Reading.takes_pure true) fun _ _ => trivial

theorem eatSym_miss (c : Char) : Reads (NotSym c) (eatSym c) [] false :=
  reads_peek fun rest hrest => by
    have hsym : ¬([] ++ rest).head? = some (.sym c) := hrest
    rw [if_neg hsym]
    exact Reading.takes_pure false

theorem expectWord_hit {w keyword : String} (h : sameWord w keyword = true) :
    Reads Anything (expectWord keyword) [.word w] () :=
  (eatWord_hit h).last (Reading.takes_pure ()) fun _ _ => trivial

theorem expectSym_hit (c : Char) : Reads Anything (expectSym c) [.sym c] () :=
  (eatSym_hit c).last (Reading.takes_pure ()) fun _ _ => trivial

theorem identifier_reads (w : String) : Reads Anything identifier [.word w] w :=
  reads_offset fun _ =>
    (reads_next (.word w)).last (Reading.takes_pure w) fun _ _ => trivial

theorem column_reads (w : String) : Reads (NotSym '.') column [.word w] w :=
  (identifier_reads w).last ((eatSym_miss '.').skip (Reading.takes_pure w) fun _ h => h)
    fun _ _ => trivial

/-- A column, or the literal that the token stands for. -/
theorem value_reads {e : Expr} (h : Operand e) : Reads (NotSym '.') value [operandTok e] e :=
  reads_offset fun _ => reads_peek fun rest hrest => by
    cases h with
    | @column name hname =>
      have hnull : sameWord name "null" = false := hname _ (by decide)
      have htrue : sameWord name "true" = false := hname _ (by decide)
      have hfalse : sameWord name "false" = false := hname _ (by decide)
      change Reads _ (if sameWord name "null" then _ else if sameWord name "true" then _
        else if sameWord name "false" then _ else _) _ _
      rw [hnull, htrue, hfalse]
      refine (column_reads name).last (Reading.takes_pure _) fun rest' heq => ?_
      rwa [heq]
    | str s => exact (reads_advance _).last (Reading.takes_pure _) fun _ _ => trivial
    | int n => exact (reads_advance _).last (Reading.takes_pure _) fun _ _ => trivial
    | num f => exact (reads_advance _).last (Reading.takes_pure _) fun _ _ => trivial
    | bool b =>
      cases b
      · exact (reads_advance _).last (Reading.takes_pure _) fun _ _ => trivial
      · exact (reads_advance _).last (Reading.takes_pure _) fun _ _ => trivial
    | null => exact (reads_advance _).last (Reading.takes_pure _) fun _ _ => trivial

theorem comparison_reads (op : CmpOp) (start : ℕ) :
    Reads Anything (comparison start) [opTok op] op := by
  refine (reads_next (opTok op)).last ?_ fun _ _ => trivial
  cases op <;> exact Reading.takes_pure _

theorem commaList_reads {first : Expr} {list : List Expr} (hfirst : Operand first)
    (hlist : ∀ e ∈ list, Operand e) {fuel : ℕ} (hfuel : list.length < fuel) :
    Reads (fun rest => NotSym '.' rest ∧ NotSym ',' rest) (commaList value fuel)
      (operandTok first :: afterCommas list) (first :: list) := by
  induction list generalizing first fuel with
  | nil =>
    cases fuel with
    | zero => cases hfuel
    | succ fuel =>
      exact (value_reads hfirst).first
        ((eatSym_miss ',').skip (Reading.takes_pure [first]) fun _ h => h.2) fun _ h => h.1
  | cons e list ih =>
    cases fuel with
    | zero => cases hfuel
    | succ fuel =>
      have hrest := ih (hlist e List.mem_cons_self) (fun e h => hlist e (List.mem_cons_of_mem _ h))
        (Nat.lt_of_succ_lt_succ hfuel)
      exact (value_reads hfirst).first
        ((eatSym_hit ',').first (hrest.last (Reading.takes_pure (first :: e :: list)) fun _ h => h)
          fun _ _ => trivial) fun _ _ => notSym_cons (by decide) _

/-! ## The predicates without parts -/

theorem compare_reads {lhs rhs : Expr} (hl : Operand lhs) (hr : Operand rhs) (op : CmpOp)
    (fuel : ℕ) : Reads (NotSym '.') (simplePredicate fuel) (sqlTokens (.compare op lhs rhs))
      (.compare op lhs rhs) := by
  have hword : ∀ keyword rest, NotWord keyword (opTok op :: rest) := fun _ _ => by cases op <;> rfl
  have hdot : opTok op ≠ .sym '.' := by cases op <;> decide
  rw [sqlTokens]
  refine reads_offset fun start => (value_reads hl).first ?_ fun _ _ => notSym_cons hdot _
  refine (eatWord_miss "is").skip ?_ fun _ _ => hword _ _
  refine (eatWord_miss "not").skip ?_ fun _ _ => hword _ _
  refine (eatWord_miss "in").skip ?_ fun _ _ => hword _ _
  refine (eatWord_miss "like").skip ?_ fun _ _ => hword _ _
  refine (comparison_reads op start).first ?_ fun _ _ => trivial
  exact (value_reads hr).last (Reading.takes_pure _) fun _ h => h

theorem isNull_reads {inner : Expr} (h : Operand inner) (fuel : ℕ) :
    Reads Anything (simplePredicate fuel) (sqlTokens (.isNull inner)) (.isNull inner) := by
  rw [sqlTokens]
  refine reads_offset fun start => (value_reads h).first ?_ fun _ _ => notSym_cons (by decide) _
  refine (eatWord_hit rfl).first ?_ fun _ _ => trivial
  refine (eatWord_miss "not").skip ?_ fun _ _ => rfl
  exact (expectWord_hit rfl).last (Reading.takes_pure _) fun _ _ => trivial

theorem isNotNull_reads {inner : Expr} (h : Operand inner) (fuel : ℕ) :
    Reads Anything (simplePredicate fuel) (sqlTokens (.isNotNull inner)) (.isNotNull inner) := by
  rw [sqlTokens]
  refine reads_offset fun start => (value_reads h).first ?_ fun _ _ => notSym_cons (by decide) _
  refine (eatWord_hit rfl).first ?_ fun _ _ => trivial
  refine (eatWord_hit rfl).first ?_ fun _ _ => trivial
  exact (expectWord_hit rfl).last (Reading.takes_pure _) fun _ _ => trivial

theorem within_reads {needle first : Expr} {list : List Expr} (h : Operand needle)
    (hfirst : Operand first) (hlist : ∀ e ∈ list, Operand e) {fuel : ℕ}
    (hfuel : list.length < fuel) :
    Reads Anything (simplePredicate fuel) (sqlTokens (.within needle (first :: list)))
      (.within needle (first :: list)) := by
  rw [sqlTokens]
  refine reads_offset fun start => (value_reads h).first ?_ fun _ _ => notSym_cons (by decide) _
  refine (eatWord_miss "is").skip ?_ fun _ _ => rfl
  refine (eatWord_miss "not").skip ?_ fun _ _ => rfl
  refine (eatWord_hit rfl).first ?_ fun _ _ => trivial
  refine (expectSym_hit '(').first ?_ fun _ _ => trivial
  refine (commaList_reads hfirst hlist hfuel).bind ?_ fun _ _ => ?_
  · exact (expectSym_hit ')').last (Reading.takes_pure _) fun _ _ => trivial
  · exact ⟨notSym_cons (by decide) _, notSym_cons (by decide) _⟩

theorem like_reads {text : Expr} (h : Operand text) (pattern : String) (fuel : ℕ) :
    Reads Anything (simplePredicate fuel) (sqlTokens (.like text pattern))
      (.like text pattern) := by
  rw [sqlTokens]
  refine reads_offset fun start => (value_reads h).first ?_ fun _ _ => notSym_cons (by decide) _
  refine (eatWord_miss "is").skip ?_ fun _ _ => rfl
  refine (eatWord_miss "not").skip ?_ fun _ _ => rfl
  refine (eatWord_miss "in").skip ?_ fun _ _ => rfl
  refine (eatWord_hit rfl).first ?_ fun _ _ => trivial
  refine reads_offset fun start => ?_
  exact (reads_next (.str pattern)).last (Reading.takes_pure _) fun _ _ => trivial

/-! ## Parts -/

section Chain

variable {keyword word : String} {wrap : List Expr → Expr} {part : Parser Expr}
  {text : Expr → List Tok} {after after' : List Tok → Prop} {e : Expr} {es : List Expr} {fuel : ℕ}

/-- Between two parts stands the word, so what may follow a part is the word or the end. -/
theorem after_parts (hword : ∀ rest, after (.word word :: rest))
    (hend : ∀ rest, after' rest → after rest ∧ NotWord keyword rest) (rest : List Tok)
    (hrest : after' rest) : after (es.flatMap (fun e => .word word :: text e) ++ rest) := by
  cases es with
  | nil => exact (hend rest hrest).1
  | cons e es => exact hword _

theorem partsAfter_reads (hkw : sameWord word keyword = true)
    (hpart : ∀ e ∈ es, Reads after part (text e) e) (hword : ∀ rest, after (.word word :: rest))
    (hend : ∀ rest, after' rest → after rest ∧ NotWord keyword rest) (hfuel : es.length < fuel) :
    Reads after' (partsAfter keyword part fuel) (es.flatMap fun e => .word word :: text e) es := by
  induction es generalizing fuel with
  | nil =>
    cases fuel with
    | zero => cases hfuel
    | succ fuel =>
      exact (eatWord_miss keyword).skip (Reading.takes_pure []) fun _ h => (hend _ h).2
  | cons e es ih =>
    cases fuel with
    | zero => cases hfuel
    | succ fuel =>
      have hrest := ih (fun e h => hpart e (List.mem_cons_of_mem _ h))
        (Nat.lt_of_succ_lt_succ hfuel)
      rw [List.flatMap_cons]
      exact (eatWord_hit hkw).first ((hpart e List.mem_cons_self).bind
        (hrest.last (Reading.takes_pure (e :: es)) fun _ h => h) (after_parts hword hend))
        fun _ _ => trivial

/-- Two parts or more are wrapped. -/
theorem chain_reads (hkw : sameWord word keyword = true)
    (hpart : ∀ p ∈ e :: es, Reads after part (text p) p)
    (hword : ∀ rest, after (.word word :: rest))
    (hend : ∀ rest, after' rest → after rest ∧ NotWord keyword rest) (hes : es ≠ [])
    (hfuel : es.length < fuel) :
    Reads after' (chain keyword wrap part fuel)
      (text e ++ es.flatMap fun e => .word word :: text e) (wrap (e :: es)) := by
  have hrest := partsAfter_reads hkw (fun p h => hpart p (List.mem_cons_of_mem _ h)) hword hend hfuel
  refine (hpart e List.mem_cons_self).bind (hrest.last ?_ fun _ h => h) (after_parts hword hend)
  have hempty : es.isEmpty = false := Bool.eq_false_iff.mpr fun h => hes (List.isEmpty_iff.mp h)
  rw [hempty]
  exact Reading.takes_pure _

/-- One part is left as it is. -/
theorem chain_single {ts : List Tok} (hpart : Reads after part ts e)
    (hend : ∀ rest, after' rest → after rest ∧ NotWord keyword rest) :
    Reads after' (chain keyword wrap part (fuel + 1)) ts e :=
  hpart.last
    (((eatWord_miss keyword).skip (Reading.takes_pure []) fun _ h => h).skip
      (Reading.takes_pure e) fun _ h => (hend _ h).2) fun _ h => (hend _ h).1

end Chain

/-! ## Predicates -/

/-- What may follow a predicate. -/
def Closes (rest : List Tok) : Prop :=
  NotSym '.' rest ∧ NotWord "and" rest ∧ NotWord "or" rest

variable {after : List Tok → Prop} {ts : List Tok} {e : Expr} {n : ℕ}

theorem parsePredicate_enclosed (h : Reads Closes (parseOr n) ts e) :
    Reads Anything (parsePredicate (n + 1)) (enclosed ts) e := by
  rw [parsePredicate]
  refine (eatSym_hit '(').first (h.bind ?_ fun _ _ => ?_) fun _ _ => trivial
  · exact (expectSym_hit ')').last (Reading.takes_pure e) fun _ _ => trivial
  · exact ⟨notSym_cons (by decide) _, rfl, rfl⟩

theorem parseNot_enclosed (h : Reads Closes (parseOr n) ts e) :
    Reads Anything (parseNot (n + 2)) (enclosed ts) e := by
  rw [parseNot]
  exact (eatWord_miss "not").skip (parsePredicate_enclosed h) fun _ _ => rfl

theorem parseNot_not (h : Reads Closes (parseOr n) ts e) :
    Reads Anything (parseNot (n + 3)) (.word "NOT" :: enclosed ts) (.not e) := by
  rw [parseNot]
  exact (eatWord_hit rfl).first
    ((parseNot_enclosed h).last (Reading.takes_pure (Expr.not e)) fun _ _ => trivial)
    fun _ _ => trivial

theorem parseAnd_single (h : Reads after (parseNot (n + 1)) ts e) :
    Reads (fun rest => after rest ∧ NotWord "and" rest) (parseAnd (n + 2)) ts e := by
  rw [parseAnd]
  exact chain_single h fun _ h => h

/-- A predicate that is one part of one part. -/
theorem parseOr_single (h : Reads after (parseNot (n + 1)) ts e)
    (hafter : ∀ rest, Closes rest → after rest) : Reads Closes (parseOr (n + 3)) ts e := by
  rw [parseOr]
  exact chain_single (parseAnd_single h) fun rest h => ⟨⟨hafter rest h, h.2.1⟩, h.2.2⟩

/-- A predicate that begins with an operand. -/
theorem parseOr_simple {lhs : Expr} (hl : Operand lhs)
    (h : Reads after (simplePredicate n) (operandTok lhs :: ts) e)
    (hafter : ∀ rest, Closes rest → after rest) :
    Reads Closes (parseOr (n + 4)) (operandTok lhs :: ts) e := by
  have hsym : operandTok lhs ≠ .sym '(' := by
    cases hl with
    | bool b => cases b <;> decide
    | _ => exact fun h => by cases h
  have hword : ∀ rest, NotWord "not" (operandTok lhs :: rest) := fun _ => by
    cases hl with
    | column hname => exact hname _ (by decide)
    | bool b => cases b <;> rfl
    | _ => rfl
  have hpredicate : Reads after (parsePredicate (n + 1)) (operandTok lhs :: ts) e := by
    rw [parsePredicate]
    exact (eatSym_miss '(').skip h fun _ _ => notSym_cons hsym _
  have hnot : Reads after (parseNot (n + 2)) (operandTok lhs :: ts) e := by
    rw [parseNot]
    exact (eatWord_miss "not").skip hpredicate fun _ _ => hword _
  exact parseOr_single hnot hafter

end Parser

theorem enclosed_length (ts : List Tok) : (enclosed ts).length = ts.length + 2 := by
  rw [enclosed, List.length_append, List.length_cons, List.length_singleton]

theorem part_length {p : Expr} {parts : List Expr} (h : p ∈ parts) (keyword : String) :
    (sqlTokens p).length + 3 ≤ (partTokens keyword parts).length := by
  induction parts with
  | nil => cases h
  | cons q ps ih =>
    rw [partTokens, List.cons_append, List.length_cons, List.length_append, enclosed_length]
    rcases List.mem_cons.mp h with rfl | h
    · omega
    · have := ih h
      omega

theorem parts_length (parts : List Expr) (keyword : String) :
    3 * parts.length ≤ (partTokens keyword parts).length := by
  induction parts with
  | nil => exact Nat.zero_le _
  | cons q ps ih =>
    rw [partTokens, List.cons_append, List.length_cons, List.length_cons, List.length_append,
      enclosed_length]
    omega

theorem afterCommas_length (list : List Expr) : (afterCommas list).length = 2 * list.length := by
  induction list with
  | nil => rfl
  | cons e list ih =>
    rw [afterCommas, List.flatMap_cons, List.length_append]
    change 2 + (afterCommas list).length = _
    rw [ih, List.length_cons]
    omega

theorem exists_two {α : Type} {parts : List α} (h : 2 ≤ parts.length) :
    ∃ p ps, parts = p :: ps ∧ ps ≠ [] :=
  match parts with
  | p :: q :: ps => ⟨p, q :: ps, rfl, List.cons_ne_nil q ps⟩

/-- A printed predicate is read back, given four calls for each of its tokens. By
induction on how it is printable; each part is read four calls deeper. -/
theorem parseOr_reads {e : Expr} (he : Printable e) {n : ℕ}
    (hn : 4 * (sqlTokens e).length ≤ n) :
    Reads Parser.Closes (Parser.parseOr (n + 4)) (sqlTokens e) e := by
  induction he generalizing n with
  | compare op hl hr =>
    exact Parser.parseOr_simple hl (Parser.compare_reads hl hr op n) fun _ h => h.1
  | @and parts htwo _ ih =>
    obtain ⟨p, ps, rfl, hps⟩ := exists_two htwo
    have hcount := parts_length (p :: ps) "AND"
    rw [sqlTokens, List.length_tail] at hn
    rw [List.length_cons] at hcount
    have hpart : ∀ q ∈ p :: ps,
        Reads Anything (Parser.parseNot (n + 2)) (enclosed (sqlTokens q)) q := fun q hq => by
      have hlen := part_length hq "AND"
      obtain ⟨m, rfl⟩ : ∃ m, n = m + 4 := ⟨n - 4, by omega⟩
      exact Parser.parseNot_enclosed (ih q hq (by omega))
    have hand : Reads (NotWord "and") (Parser.parseAnd (n + 3))
        (sqlTokens (.and (p :: ps))) (.and (p :: ps)) := by
      rw [Parser.parseAnd, sqlTokens, partTokens_eq]
      exact Parser.chain_reads rfl hpart (fun _ => trivial) (fun _ h => ⟨trivial, h⟩) hps
        (by omega)
    rw [Parser.parseOr]
    exact Parser.chain_single hand fun _ h => h.2
  | @or parts htwo _ ih =>
    obtain ⟨p, ps, rfl, hps⟩ := exists_two htwo
    have hcount := parts_length (p :: ps) "OR"
    rw [sqlTokens, List.length_tail] at hn
    rw [List.length_cons] at hcount
    have hpart : ∀ q ∈ p :: ps, Reads (fun rest => Anything rest ∧ NotWord "and" rest)
        (Parser.parseAnd (n + 3)) (enclosed (sqlTokens q)) q := fun q hq => by
      have hlen := part_length hq "OR"
      obtain ⟨m, rfl⟩ : ∃ m, n = m + 4 := ⟨n - 4, by omega⟩
      exact Parser.parseAnd_single (Parser.parseNot_enclosed (ih q hq (by omega)))
    rw [Parser.parseOr, sqlTokens, partTokens_eq]
    exact Parser.chain_reads rfl hpart (fun _ => ⟨trivial, rfl⟩)
      (fun _ h => ⟨⟨trivial, h.2.1⟩, h.2.2⟩) hps (by omega)
  | @not inner _ ih =>
    rw [sqlTokens, List.length_cons, enclosed_length] at hn
    obtain ⟨m, rfl⟩ : ∃ m, n = m + 5 := ⟨n - 5, by omega⟩
    rw [sqlTokens]
    exact Parser.parseOr_single (Parser.parseNot_not (ih (by omega))) fun _ _ => trivial
  | isNull h => exact Parser.parseOr_simple h (Parser.isNull_reads h n) fun _ _ => trivial
  | isNotNull h => exact Parser.parseOr_simple h (Parser.isNotNull_reads h n) fun _ _ => trivial
  | @within needle list h hne hlist =>
    obtain ⟨first, list, rfl⟩ := List.exists_cons_of_ne_nil hne
    have hfuel : list.length < n := by
      rw [sqlTokens, List.length_cons, List.length_cons, enclosed_length, List.length_tail,
        afterCommas_length, List.length_cons] at hn
      omega
    exact Parser.parseOr_simple h (Parser.within_reads h (hlist first List.mem_cons_self)
      (fun e h => hlist e (List.mem_cons_of_mem _ h)) hfuel) fun _ _ => trivial
  | like h pattern => exact Parser.parseOr_simple h (Parser.like_reads h pattern n) fun _ _ => trivial

/-! ## Statements -/

namespace Parser

variable {α : Type}

theorem refuse_select :
    Reads (fun rest => rest.head? = some (.word "SELECT")) refuse [] () :=
  reads_peek fun rest hrest => by
    rw [List.nil_append, hrest]
    exact Reading.takes_pure ()

theorem clause_hit {word keyword : String} {body : Parser α} {after : List Tok → Prop}
    {ts : List Tok} {a : α} (hkw : sameWord word keyword = true) (h : Reads after body ts a) :
    Reads after (clause keyword body) (.word word :: ts) (some a) :=
  (eatWord_hit hkw).first (h.last (Reading.takes_pure (some a)) fun _ h => h) fun _ _ => trivial

theorem clause_miss (keyword : String) (body : Parser α) :
    Reads (NotWord keyword) (clause keyword body) [] none :=
  (eatWord_miss keyword).skip (Reading.takes_pure none) fun _ h => h

theorem star_reads (fuel : ℕ) : Reads (NotSym ',') (commaList item (fuel + 1)) [.sym '*'] [.star] := by
  have hitem : Reads Anything item [.sym '*'] .star :=
    (eatSym_hit '*').last (Reading.takes_pure Item.star) fun _ _ => trivial
  exact hitem.last ((eatSym_miss ',').skip (Reading.takes_pure [Item.star]) fun _ h => h)
    fun _ _ => trivial

theorem source_reads (base : String) :
    Reads (fun rest => rest.head? = some (.word "WHERE")) source [.word base] (.scan base) := by
  have hword : ∀ keyword, sameWord "WHERE" keyword = false → ∀ rest : List Tok,
      rest.head? = some (.word "WHERE") → NotWord keyword rest := fun keyword h rest hrest => by
    rw [NotWord, hrest]
    exact h
  have hkind : Reads (fun rest => rest.head? = some (.word "WHERE")) joinKind [] none := by
    refine (eatWord_miss "left").skip ?_ (hword _ rfl)
    refine (eatWord_miss "inner").skip ?_ (hword _ rfl)
    exact (peekWord_miss "join").skip (Reading.takes_pure none) (hword _ rfl)
  exact (identifier_reads base).last (hkind.skip (Reading.takes_pure _) fun _ h => h)
    fun _ _ => trivial

theorem selected_star (root : LogicalOp) : selected [.star] [] root = pure root := rfl

theorem atEnd_reads : Reads (· = []) atEnd [] () := reads_peek fun rest hrest => by
  rw [hrest]
  exact Reading.takes_pure ()

/-- The statement around a printed predicate. -/
theorem select_reads {e : Expr} (he : Printable e) (base : String) {n : ℕ}
    (hn : 4 * (sqlTokens e).length ≤ n) :
    Reads (· = []) (select (n + 4)) (selectTokens base e) (.filter (.scan base) e) := by
  have hmiss : ∀ keyword (rest : List Tok), rest = [] → NotWord keyword rest := fun _ _ h => by
    rw [h]
    rfl
  refine refuse_select.skip ?_ fun _ _ => rfl
  refine (expectWord_hit rfl).first ?_ fun _ _ => trivial
  refine (star_reads (n + 3)).first ?_ fun _ _ => notSym_cons (by decide) _
  refine (expectWord_hit rfl).first ?_ fun _ _ => trivial
  refine (source_reads base).first ?_ fun _ _ => rfl
  refine (clause_hit rfl (parseOr_reads he hn)).last ?_ fun rest h => ?_
  · refine (clause_miss "group" _).skip ?_ (hmiss _)
    rw [Option.getD_none, selected_star]
    refine (Reading.takes_pure _ : Reads Anything (pure _) [] _).skip ?_ fun _ _ => trivial
    refine (clause_miss "order" _).skip ?_ (hmiss _)
    refine (clause_miss "limit" _).skip ?_ (hmiss _)
    exact atEnd_reads.skip (Reading.takes_pure _) fun _ h => h
  · rw [h]
    exact ⟨(fun h => by cases h), rfl, rfl⟩

end Parser

end Adabt.Ir.Sql
