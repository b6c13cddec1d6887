import Adabt.Ir.SqlPrint

/-! # Predicates through a text and back

The lexer makes a character of every byte of a string. A printed predicate comes back
with its strings read so, that is as it was just if they are ASCII. -/

set_option autoImplicit false

namespace Adabt.Ir.Sql
open Adabt.Core Adabt.Library Adabt.Storage

/-! ## What becomes of the strings -/

/-- The string that the lexer makes of the bytes of a string. -/
def latin (s : String) : String := ofBytes (utf8 s)

mutual

/-- The predicate with every string literal and pattern as the lexer reads it. -/
def latinExpr : Expr → Expr
  | .literal (.str s) => .literal (.str (latin s))
  | .literal v => .literal v
  | .field name => .field name
  | .compare op lhs rhs => .compare op (latinExpr lhs) (latinExpr rhs)
  | .and parts => .and (latinParts parts)
  | .or parts => .or (latinParts parts)
  | .not inner => .not (latinExpr inner)
  | .isNull inner => .isNull (latinExpr inner)
  | .isNotNull inner => .isNotNull (latinExpr inner)
  | .arith op lhs rhs => .arith op (latinExpr lhs) (latinExpr rhs)
  | .within needle list => .within (latinExpr needle) (latinParts list)
  | .like text pattern => .like (latinExpr text) (latin pattern)

def latinParts : List Expr → List Expr
  | [] => []
  | e :: es => latinExpr e :: latinParts es

end

mutual

/-- The string literals and the patterns of a predicate. -/
def texts : Expr → List String
  | .literal (.str s) => [s]
  | .literal _ => []
  | .field _ => []
  | .compare _ lhs rhs => texts lhs ++ texts rhs
  | .and parts => textsOf parts
  | .or parts => textsOf parts
  | .not inner => texts inner
  | .isNull inner => texts inner
  | .isNotNull inner => texts inner
  | .arith _ lhs rhs => texts lhs ++ texts rhs
  | .within needle list => texts needle ++ textsOf list
  | .like text pattern => texts text ++ [pattern]

def textsOf : List Expr → List String
  | [] => []
  | e :: es => texts e ++ textsOf es

end

def Ascii (s : String) : Prop := ∀ c ∈ s.toList, c.toNat < 128

/-- Every string literal and every pattern is ASCII. -/
def AsciiTexts (e : Expr) : Prop := ∀ s ∈ texts e, Ascii s

theorem utf8_eq (s : String) : utf8 s = s.toList.flatMap String.utf8EncodeChar := by
  have h : s.toByteArray = (s.toList.flatMap String.utf8EncodeChar).toByteArray :=
    String.utf8Encode_toList.symm
  rw [utf8, h]
  simp

theorem utf8Size_eq_one_iff {c : Char} : c.utf8Size = 1 ↔ c.toNat < 128 := by
  rw [Char.utf8Size]
  split
  next h => exact iff_of_true rfl (Nat.lt_succ_of_le h)
  next h =>
    refine iff_of_false ?_ fun hlt => h (Nat.le_of_lt_succ hlt)
    split
    · decide
    · split <;> decide

theorem byteChar_ascii {c : Char} (h : c.toNat < 128) :
    (String.utf8EncodeChar c).map byteChar = [c] := by
  have hnat : (UInt32.toUInt8 c.val).toNat = c.toNat :=
    (UInt32.toNat_toUInt8 c.val).trans (Nat.mod_eq_of_lt (Nat.lt_trans h (by decide)))
  rw [String.utf8EncodeChar_eq_singleton (utf8Size_eq_one_iff.mpr h), List.map_singleton, byteChar, hnat,
    Char.ofNat_toNat]

theorem encoded_length_ge (cs : List Char) :
    cs.length ≤ (cs.flatMap String.utf8EncodeChar).length := by
  induction cs with
  | nil => exact Nat.le_refl 0
  | cons c cs ih =>
    have hpos := c.utf8Size_pos
    rw [List.flatMap_cons, List.length_append, String.length_utf8EncodeChar, List.length_cons]
    omega

/-- A character takes one byte just if it is ASCII, so no other string comes back as long. -/
theorem encoded_chars_iff (cs : List Char) :
    (cs.flatMap String.utf8EncodeChar).map byteChar = cs ↔ ∀ c ∈ cs, c.toNat < 128 := by
  induction cs with
  | nil => exact iff_of_true rfl fun _ h => by cases h
  | cons c cs ih =>
    rw [List.forall_mem_cons, List.flatMap_cons, List.map_append]
    constructor
    · intro h
      have hc : c.toNat < 128 := by
        have hlen := congrArg List.length h
        have hge := encoded_length_ge cs
        rw [List.length_append, List.length_map, List.length_map, String.length_utf8EncodeChar,
          List.length_cons] at hlen
        have hpos := c.utf8Size_pos
        exact utf8Size_eq_one_iff.mp (by omega)
      rw [byteChar_ascii hc] at h
      exact ⟨hc, ih.mp (List.cons.inj h).2⟩
    · rintro ⟨hc, hcs⟩
      rw [byteChar_ascii hc, ih.mpr hcs]
      rfl

theorem latin_eq_iff (s : String) : latin s = s ↔ Ascii s := by
  rw [Ascii, ← encoded_chars_iff, ← utf8_eq, ← String.toList_inj, latin, ofBytes,
    String.toList_ofList]

theorem latinParts_eq (es : List Expr) : latinParts es = es.map latinExpr := by
  induction es with
  | nil => rfl
  | cons e es ih => rw [latinParts, ih, List.map_cons]

theorem textsOf_eq (es : List Expr) : textsOf es = es.flatMap texts := by
  induction es with
  | nil => rfl
  | cons e es ih => rw [textsOf, ih, List.flatMap_cons]

theorem map_eq_self_iff {α : Type} {f : α → α} {l : List α} :
    l.map f = l ↔ ∀ a ∈ l, f a = a := by
  induction l with
  | nil => exact iff_of_true rfl fun _ h => by cases h
  | cons a l ih => rw [List.map_cons, List.cons.injEq, List.forall_mem_cons, ih]

theorem Operand.latin {e : Expr} (h : Operand e) : Operand (latinExpr e) := by
  cases h with
  | column hname => exact .column hname
  | str s => exact .str (Sql.latin s)
  | int n => exact .int n
  | num f => exact .num f
  | bool b => exact .bool b
  | null => exact .null

theorem operandTok_latin {e : Expr} (h : Operand e) :
    operandTok (latinExpr e) = readTok (operandTok e) := by
  cases h with
  | bool b => cases b <;> rfl
  | _ => rfl

theorem afterCommas_latin {es : List Expr} (h : ∀ e ∈ es, Operand e) :
    afterCommas (latinParts es) = (afterCommas es).map readTok := by
  induction es with
  | nil => rfl
  | cons e es ih =>
    have hrest := ih fun e he => h e (List.mem_cons_of_mem _ he)
    have hfirst := operandTok_latin (h e List.mem_cons_self)
    change .sym ',' :: operandTok (latinExpr e) :: afterCommas (latinParts es) =
      readTok (.sym ',') :: readTok (operandTok e) :: (afterCommas es).map readTok
    rw [hrest, hfirst]
    rfl

theorem enclosed_read (ts : List Tok) : enclosed (ts.map readTok) = (enclosed ts).map readTok := by
  rw [enclosed, enclosed, List.map_append]
  rfl

theorem partTokens_latin (keyword : String) {parts : List Expr}
    (h : ∀ p ∈ parts, sqlTokens (latinExpr p) = (sqlTokens p).map readTok) :
    partTokens keyword (latinParts parts) = (partTokens keyword parts).map readTok := by
  induction parts with
  | nil => rw [latinParts, partTokens, List.map_nil]
  | cons p ps ih =>
    rw [latinParts, partTokens, partTokens, ih fun q hq => h q (List.mem_cons_of_mem _ hq),
      h p List.mem_cons_self, enclosed_read, List.map_append, List.map_cons]
    rfl

theorem opTok_read (op : CmpOp) : readTok (opTok op) = opTok op := by cases op <;> rfl

theorem Printable.latin {e : Expr} (h : Printable e) : Printable (latinExpr e) := by
  induction h with
  | compare op hl hr => exact .compare op hl.latin hr.latin
  | @and parts htwo _ ih =>
    rw [latinExpr, latinParts_eq]
    exact .and (by rwa [List.length_map]) (List.forall_mem_map.mpr ih)
  | @or parts htwo _ ih =>
    rw [latinExpr, latinParts_eq]
    exact .or (by rwa [List.length_map]) (List.forall_mem_map.mpr ih)
  | not _ ih => exact .not ih
  | isNull h => exact .isNull h.latin
  | isNotNull h => exact .isNotNull h.latin
  | within h hne hlist =>
    rw [latinExpr, latinParts_eq]
    exact .within h.latin (fun h => hne (List.map_eq_nil_iff.mp h))
      (List.forall_mem_map.mpr fun e he => (hlist e he).latin)
  | like h pattern => exact .like h.latin (Sql.latin pattern)

/-- The tokens that the lexer makes of a printed predicate are those of its reading. -/
theorem sqlTokens_latin {e : Expr} (h : Printable e) :
    sqlTokens (latinExpr e) = (sqlTokens e).map readTok := by
  induction h with
  | compare op hl hr =>
    rw [latinExpr, sqlTokens, sqlTokens, operandTok_latin hl, operandTok_latin hr, List.map_cons,
      List.map_cons, List.map_singleton, opTok_read]
  | and _ _ ih =>
    rw [latinExpr, sqlTokens, sqlTokens, partTokens_latin "AND" ih, List.map_tail]
  | or _ _ ih =>
    rw [latinExpr, sqlTokens, sqlTokens, partTokens_latin "OR" ih, List.map_tail]
  | not _ ih =>
    rw [latinExpr, sqlTokens, sqlTokens, ih, enclosed_read]
    rfl
  | isNull h =>
    rw [latinExpr, sqlTokens, sqlTokens, operandTok_latin h]
    rfl
  | isNotNull h =>
    rw [latinExpr, sqlTokens, sqlTokens, operandTok_latin h]
    rfl
  | within h _ hlist =>
    rw [latinExpr, sqlTokens, sqlTokens, operandTok_latin h, afterCommas_latin hlist,
      List.map_cons, List.map_cons, ← enclosed_read, List.map_tail]
    rfl
  | like h pattern =>
    rw [latinExpr, sqlTokens, sqlTokens, operandTok_latin h]
    rfl

theorem Operand.latin_eq_iff {e : Expr} (h : Operand e) : latinExpr e = e ↔ AsciiTexts e := by
  cases h with
  | str s =>
    have hone : AsciiTexts (.literal (.str s)) ↔ Ascii s := List.forall_mem_singleton
    rw [hone, ← Sql.latin_eq_iff, latinExpr, Expr.literal.injEq, Value.str.injEq]
  | _ => exact iff_of_true rfl fun _ h => by cases h

theorem asciiTexts_parts {es : List Expr} (h : ∀ e ∈ es, latinExpr e = e ↔ AsciiTexts e) :
    latinParts es = es ↔ ∀ s ∈ textsOf es, Ascii s := by
  rw [latinParts_eq, map_eq_self_iff, textsOf_eq]
  constructor
  · intro heq s hs
    obtain ⟨e, he, hs⟩ := List.mem_flatMap.mp hs
    exact (h e he).mp (heq e he) s hs
  · exact fun hascii e he => (h e he).mpr fun s hs => hascii s (List.mem_flatMap.mpr ⟨e, he, hs⟩)

/-- A predicate is read as it is just if its strings are. -/
theorem Printable.latin_eq_iff {e : Expr} (h : Printable e) : latinExpr e = e ↔ AsciiTexts e := by
  induction h with
  | compare op hl hr =>
    rw [latinExpr, Expr.compare.injEq, hl.latin_eq_iff, hr.latin_eq_iff]
    exact (and_iff_right rfl).trans List.forall_mem_append.symm
  | and _ _ ih =>
    rw [latinExpr, Expr.and.injEq]
    exact asciiTexts_parts ih
  | or _ _ ih =>
    rw [latinExpr, Expr.or.injEq]
    exact asciiTexts_parts ih
  | not _ ih =>
    rw [latinExpr, Expr.not.injEq]
    exact ih
  | isNull h =>
    rw [latinExpr, Expr.isNull.injEq]
    exact h.latin_eq_iff
  | isNotNull h =>
    rw [latinExpr, Expr.isNotNull.injEq]
    exact h.latin_eq_iff
  | within h _ hlist =>
    rw [latinExpr, Expr.within.injEq, h.latin_eq_iff,
      asciiTexts_parts fun e he => (hlist e he).latin_eq_iff]
    exact List.forall_mem_append.symm
  | like h pattern =>
    rw [latinExpr, Expr.like.injEq, h.latin_eq_iff, Sql.latin_eq_iff,
      ← List.forall_mem_singleton (p := Ascii)]
    exact List.forall_mem_append.symm

/-! ## Reading a printed statement -/

/-- A statement that spells a printed predicate is read as that predicate, its strings as
the lexer has them. -/
theorem parseSelect_printed {e : Expr} (he : Printable e) {base sql : String}
    (hsql : Laid (selectTokens base e) (utf8 sql)) :
    parseSelect sql = .ok (.filter (.scan base) (latinExpr e)) := by
  obtain ⟨toks, htoks, hfst⟩ := hsql.tokens
  have hread : toks.map Prod.fst = selectTokens base (latinExpr e) := by
    rw [hfst, selectTokens, selectTokens, sqlTokens_latin he]
    rfl
  have hlen : toks.length = (sqlTokens (latinExpr e)).length + 5 := by
    rw [← List.length_map, hread, selectTokens]
    rfl
  have hfuel : 4 * (sqlTokens (latinExpr e)).length ≤ 4 * toks.length := by omega
  have hreads := Parser.select_reads he.latin base hfuel
  rw [← hread] at hreads
  have hselect : (Parser.select (fuelFor toks)).runOn toks =
      .ok (.filter (.scan base) (latinExpr e)) := Reading.Takes.runOn hreads rfl
  cases toks with
  | nil => cases hlen
  | cons tok toks =>
    rw [parseSelect, htoks]
    exact hselect

/-! ## Two statements -/

/-- `SELECT * FROM t WHERE`, in bytes. -/
def selectWords : List (Tok × Bytes) :=
  [(.word "SELECT", [83, 69, 76, 69, 67, 84]), (.sym '*', [42]), (.word "FROM", [70, 82, 79, 77]),
    (.word "t", [116]), (.word "WHERE", [87, 72, 69, 82, 69])]

theorem word_spelled {w : String} {c : UInt8} {cs : Bytes} (hw : ofBytes (c :: cs) = w)
    (hc : startsWord c) (hcs : cs.all inWord) : Spelled (.word w) (c :: cs) :=
  hw ▸ .word hc (List.all_eq_true.mp hcs)

theorem selectWords_spelled : ∀ w ∈ selectWords, Spelled w.1 w.2 := by
  have hselect : Spelled (.word "SELECT") [83, 69, 76, 69, 67, 84] :=
    word_spelled (by decide) rfl rfl
  have hfrom : Spelled (.word "FROM") [70, 82, 79, 77] :=
    word_spelled (by decide) rfl rfl
  have hbase : Spelled (.word "t") [116] := word_spelled (by decide) rfl rfl
  have hwhere : Spelled (.word "WHERE") [87, 72, 69, 82, 69] :=
    word_spelled (by decide) rfl rfl
  have hstar : Spelled (.sym (byteChar 42)) [42] := .sym (by decide)
  simp only [selectWords, List.forall_mem_cons, List.not_mem_nil, false_imp_iff, implies_true]
  exact ⟨hselect, hstar, hfrom, hbase, hwhere, trivial⟩

theorem laid_where {words : List (Tok × Bytes)} {e : Expr} {sql : String}
    (hwords : ∀ w ∈ words, Spelled w.1 w.2) (htoks : words.map Prod.fst = sqlTokens e)
    (hsql : utf8 sql = spaced (selectWords ++ words)) :
    Laid (selectTokens "t" e) (utf8 sql) := by
  have hlaid := spaced_laid (List.forall_mem_append.mpr ⟨selectWords_spelled, hwords⟩)
  rw [List.map_append, htoks] at hlaid
  rw [hsql]
  exact hlaid

/-- `n = 1` -/
def nIsOne : Expr := .compare .eq (.field "n") (.literal (.i64 1))

theorem nIsOne_laid : Laid (selectTokens "t" nIsOne) (utf8 " SELECT * FROM t WHERE n = 1") := by
  have hn : Spelled (.word "n") [110] := word_spelled (by decide) rfl rfl
  have heq : Spelled (.sym (byteChar 61)) [61] := .sym (by decide)
  have hone : Spelled (.int 1) [49] := .int (List.cons_ne_nil _ _) (List.forall_mem_singleton.mpr rfl) (by decide)
  have hwords : ∀ w ∈ [(.word "n", [110]), (.sym '=', [61]), (.int 1, [49])],
      Spelled w.1 w.2 := by
    simp only [List.forall_mem_cons, List.not_mem_nil, false_imp_iff, implies_true]
    exact ⟨hn, heq, hone, trivial⟩
  exact laid_where hwords rfl (by decide)

/-- `s = 'é'` -/
def sIsAccented : Expr := .compare .eq (.field "s") (.literal (.str "é"))

theorem sIsAccented_laid :
    Laid (selectTokens "t" sIsAccented) (utf8 " SELECT * FROM t WHERE s = 'é'") := by
  have hs : Spelled (.word "s") [115] := word_spelled (by decide) rfl rfl
  have heq : Spelled (.sym (byteChar 61)) [61] := .sym (by decide)
  have hbytes : quote :: doubled (utf8 "é") ++ [quote] = [39, 195, 169, 39] := by decide
  have hstr : Spelled (.str "é") [39, 195, 169, 39] := hbytes ▸ .str "é"
  have hwords : ∀ w ∈ [(.word "s", [115]), (.sym '=', [61]), (.str "é", [39, 195, 169, 39])],
      Spelled w.1 w.2 := by
    simp only [List.forall_mem_cons, List.not_mem_nil, false_imp_iff, implies_true]
    exact ⟨hs, heq, hstr, trivial⟩
  exact laid_where hwords rfl (by decide)

theorem nIsOne_printable : Printable nIsOne := .compare .eq (.column (by decide)) (.int 1)

theorem sIsAccented_printable : Printable sIsAccented := .compare .eq (.column (by decide)) (.str "é")

/-! ## The round trip -/

/-- A printed predicate comes back just if its string literals and patterns are ASCII. -/
theorem sql_round_trip_iff {e : Expr} (he : Printable e) {base sql : String}
    (hsql : Laid (selectTokens base e) (utf8 sql)) :
    parseSelect sql = .ok (.filter (.scan base) e) ↔ AsciiTexts e := by
  rw [parseSelect_printed he hsql, Except.ok.injEq, LogicalOp.filter.injEq, he.latin_eq_iff]
  exact and_iff_right rfl

theorem sql_round_trip_one :
    parseSelect " SELECT * FROM t WHERE n = 1" = .ok (.filter (.scan "t") nIsOne) :=
  (sql_round_trip_iff nIsOne_printable nIsOne_laid).mpr fun _ h => by cases h

/-- The two bytes of the letter come back as two characters. -/
theorem accented_string_changed :
    Printable sIsAccented ∧
      Laid (selectTokens "t" sIsAccented) (utf8 " SELECT * FROM t WHERE s = 'é'") ∧
      parseSelect " SELECT * FROM t WHERE s = 'é'" =
        .ok (.filter (.scan "t") (.compare .eq (.field "s") (.literal (.str "Ã©")))) ∧
      parseSelect " SELECT * FROM t WHERE s = 'é'" ≠ .ok (.filter (.scan "t") sIsAccented) := by
  have hread := parseSelect_printed sIsAccented_printable sIsAccented_laid
  have hlatin : latin "é" = "Ã©" := by decide
  have hexpr : latinExpr sIsAccented =
      .compare .eq (.field "s") (.literal (.str "Ã©")) := by
    rw [sIsAccented, latinExpr, latinExpr, latinExpr, hlatin]
  rw [hexpr] at hread
  refine ⟨sIsAccented_printable, sIsAccented_laid, hread, ?_⟩
  rw [hread]
  intro heq
  have hstr : "Ã©" = "é" := by
    injection heq with heq
    injection heq with _ heq
    injection heq with _ _ heq
    injection heq with heq
    injection heq
  exact absurd hstr (by decide)

end Adabt.Ir.Sql
