import Adabt.Ir.Sql

/-! # Texts of a token list

`Laid` says which texts spell a list of tokens: each token in one of its spellings,
with white space and line comments between. The lexer gives back the tokens of every
such text, up to what it makes of the bytes of a string. -/

set_option autoImplicit false

namespace Adabt.Ir.Sql
open Adabt.Core Adabt.Library Adabt.Storage

/-! ## Gaps -/

/-- White space and whole line comments. -/
inductive Gap : Bytes → Prop where
  | nil : Gap []
  | space {b : UInt8} {bs : Bytes} (hb : isSpace b) (hbs : Gap bs) : Gap (b :: bs)
  | comment {body bs : Bytes} (hbody : newline ∉ body) (hbs : Gap bs) :
      Gap (dash :: dash :: body ++ newline :: bs)

theorem skipFrom_body {body : Bytes} (hbody : newline ∉ body) (rest : Bytes) :
    skipFrom true (body ++ newline :: rest) = skipFrom false rest := by
  induction body with
  | nil => rfl
  | cons c body ih =>
    have hc : c ≠ newline := (List.ne_of_not_mem_cons hbody).symm
    rw [List.cons_append, skipFrom, decide_eq_true hc, ih (List.not_mem_of_not_mem_cons hbody)]

theorem skipFrom_open {body : Bytes} (hbody : newline ∉ body) : skipFrom true body = [] := by
  induction body with
  | nil => rfl
  | cons c body ih =>
    have hc : c ≠ newline := (List.ne_of_not_mem_cons hbody).symm
    rw [skipFrom, decide_eq_true hc, ih (List.not_mem_of_not_mem_cons hbody)]

theorem skipWs_comment (rest : Bytes) :
    skipWs (dash :: dash :: rest) = skipFrom true rest := rfl

theorem Gap.skipWs {bs : Bytes} (h : Gap bs) (rest : Bytes) : skipWs (bs ++ rest) = skipWs rest := by
  induction h with
  | nil => rfl
  | space hb _ ih =>
    rw [List.cons_append, Sql.skipWs, skipFrom, if_pos hb]
    exact ih
  | comment hbody _ ih =>
    rw [List.append_assoc, List.cons_append, List.cons_append, skipWs_comment, List.cons_append,
      skipFrom_body hbody]
    exact ih

theorem skipWs_token {c : UInt8} {rest : Bytes} (hspace : isSpace c = false) (hdash : c ≠ dash) :
    skipWs (c :: rest) = c :: rest := by
  rw [skipWs, skipFrom, if_neg (by rw [hspace]; decide), if_neg fun h => hdash h.1]

/-! ## Spellings -/

/-- Inside a string every quote is written twice. -/
def doubled (bs : Bytes) : Bytes := bs.flatMap fun b => if b = quote then [quote, quote] else [b]

/-- The bytes a token may be written with. -/
inductive Spelled : Tok → Bytes → Prop where
  | word {c : UInt8} {cs : Bytes} (hc : startsWord c) (hcs : ∀ b ∈ cs, inWord b) :
      Spelled (.word (ofBytes (c :: cs))) (c :: cs)
  | str (s : String) : Spelled (.str s) (quote :: doubled (utf8 s) ++ [quote])
  | int {n : Int64} {ds : Bytes} (hne : ds ≠ []) (hds : ∀ d ∈ ds, isDigit d)
      (hn : (digitsValue ds : Int) = n.toInt) : Spelled (.int n) ds
  | num {whole fraction : Bytes} (hne : whole ≠ []) (hwhole : ∀ d ∈ whole, isDigit d)
      (hfraction : ∀ d ∈ fraction, isDigit d) :
      Spelled (.num (F64.lit (digitsValue (whole ++ fraction)) (10 ^ fraction.length)))
        (whole ++ point :: fraction)
  | sym {b : UInt8} (hb : b ∈ symbols) : Spelled (.sym (byteChar b)) [b]
  | op2 {c d : UInt8} (h : (c, d) ∈ [(60, 61), (62, 61), (60, 62), (33, 61)]) :
      Spelled (.op2 (ofBytes [c, d])) [c, d]

/-- The byte would be read as part of the token before it. -/
def RunsOn : Tok → UInt8 → Prop
  | .word _, b => inWord b
  | .str _, b => b = quote
  | .num _, b => isDigit b
  | .int _, b => isDigit b ∨ b = point
  | .sym c, b => (c = '<' ∨ c = '>') ∧ b = 61 ∨ c = '<' ∧ b = 62
  | .op2 _, _ => False

/-- The text spells the tokens; the last comment may be without a newline. -/
inductive Laid : List Tok → Bytes → Prop where
  | done {gap : Bytes} (hgap : Gap gap) : Laid [] gap
  | remark {gap body : Bytes} (hgap : Gap gap) (hbody : newline ∉ body) :
      Laid [] (gap ++ dash :: dash :: body)
  | token {gap text rest : Bytes} {t : Tok} {ts : List Tok} (hgap : Gap gap)
      (htext : Spelled t text) (hrest : Laid ts rest) (hend : ∀ b ∈ rest.head?, ¬RunsOn t b) :
      Laid (t :: ts) (gap ++ (text ++ rest))

/-- A blank before each token. -/
def spaced (words : List (Tok × Bytes)) : Bytes := words.flatMap fun w => 32 :: w.2

theorem not_runsOn_space (t : Tok) : ¬RunsOn t 32 := by
  cases t <;> simp [RunsOn, inWord, isAlphabetic, isDigit, quote, point]

/-- Tokens with blanks before them never run together. -/
theorem spaced_laid {words : List (Tok × Bytes)} (h : ∀ w ∈ words, Spelled w.1 w.2) :
    Laid (words.map Prod.fst) (spaced words) := by
  induction words with
  | nil => exact .done .nil
  | cons w words ih =>
    have hrest := ih fun v hv => h v (List.mem_cons_of_mem _ hv)
    have hend : ∀ b ∈ (spaced words).head?, ¬RunsOn w.1 b := by
      cases words with
      | nil => exact fun _ hb => by cases hb
      | cons v words =>
        rintro b ⟨⟩
        exact not_runsOn_space w.1
    exact .token (.space rfl .nil) (h w List.mem_cons_self) hrest hend

/-- What the lexer makes of a token: the characters of a string are the bytes of its text. -/
def readTok : Tok → Tok
  | .str s => .str (ofBytes (utf8 s))
  | t => t

/-! ## Bytes -/

theorem startsWord_inWord {b : UInt8} (h : startsWord b) : inWord b := by
  rw [startsWord, Bool.or_eq_true] at h
  rw [inWord, Bool.or_eq_true, Bool.or_eq_true]
  exact h.imp_left .inl

theorem startsWord_range {b : UInt8} (h : startsWord b) : 65 ≤ b.toNat ∧ b.toNat ≤ 122 := by
  simp only [startsWord, isAlphabetic, Bool.or_eq_true, Bool.and_eq_true, decide_eq_true_eq] at h
  omega

theorem isDigit_range {b : UInt8} (h : isDigit b) : 48 ≤ b.toNat ∧ b.toNat ≤ 57 := by
  simpa only [isDigit, Bool.and_eq_true, decide_eq_true_eq] using h

theorem isDigit_ne_point {b : UInt8} (h : isDigit b) : b ≠ point := by
  rintro rfl
  exact absurd h (by decide)

theorem isDigit_not_startsWord {b : UInt8} (h : isDigit b) : startsWord b = false := by
  have hrange := isDigit_range h
  refine Bool.eq_false_iff.mpr fun hword => ?_
  have := startsWord_range hword
  omega

theorem starts_token {b : UInt8} (h : 48 ≤ b.toNat) : isSpace b = false ∧ b ≠ dash := by
  refine ⟨?_, ?_⟩
  · simp only [isSpace, Bool.or_eq_false_iff, decide_eq_false_iff_not]
    omega
  · rintro rfl
    exact absurd h (by decide)

theorem Spelled.starts {t : Tok} {text : Bytes} (h : Spelled t text) :
    ∃ c cs, text = c :: cs ∧ isSpace c = false ∧ c ≠ dash := by
  cases h with
  | @word c cs hc =>
    exact ⟨c, cs, rfl, starts_token (by have := startsWord_range hc; omega)⟩
  | str s => exact ⟨quote, _, rfl, by decide, by decide⟩
  | int hne hds =>
    obtain ⟨d, ds, rfl⟩ := List.exists_cons_of_ne_nil hne
    exact ⟨d, ds, rfl, starts_token (isDigit_range (hds d List.mem_cons_self)).1⟩
  | num hne hwhole =>
    obtain ⟨d, ds, rfl⟩ := List.exists_cons_of_ne_nil hne
    exact ⟨d, _, rfl, starts_token (isDigit_range (hwhole d List.mem_cons_self)).1⟩
  | @sym b hb =>
    have hall : ∀ b ∈ symbols, isSpace b = false ∧ b ≠ dash := by simp [symbols, isSpace, dash]
    exact ⟨b, [], rfl, hall b hb⟩
  | @op2 c d h =>
    have hall : ∀ p ∈ ([(60, 61), (62, 61), (60, 62), (33, 61)] : List (UInt8 × UInt8)),
      isSpace p.1 = false ∧ p.1 ≠ dash := by simp [isSpace, dash]
    exact ⟨c, [d], rfl, hall (c, d) h⟩

/-! ## Reading one token -/

theorem take_run {p : UInt8 → Bool} {bs rest : Bytes} (hbs : ∀ b ∈ bs, p b)
    (hrest : ∀ b ∈ rest.head?, p b = false) : (bs ++ rest).takeWhile p = bs := by
  rw [List.takeWhile_append_of_pos hbs]
  cases rest with
  | nil => rw [List.takeWhile_nil, List.append_nil]
  | cons b rest =>
    have hb : ¬p b = true := by rw [hrest b rfl]; decide
    rw [List.takeWhile_cons_of_neg hb, List.append_nil]

theorem drop_run {p : UInt8 → Bool} {bs rest : Bytes} (hbs : ∀ b ∈ bs, p b)
    (hrest : ∀ b ∈ rest.head?, p b = false) : (bs ++ rest).dropWhile p = rest := by
  rw [List.dropWhile_append_of_pos hbs]
  cases rest with
  | nil => rfl
  | cons b rest =>
    have hb : ¬p b = true := by rw [hrest b rfl]; decide
    exact List.dropWhile_cons_of_neg hb

theorem spanNumber_digits {ds : Bytes} (hds : ∀ d ∈ ds, isDigit d) (seen : Bool) (rest : Bytes) :
    spanNumber seen (ds ++ rest) =
      (ds ++ (spanNumber seen rest).1, (spanNumber seen rest).2) := by
  induction ds with
  | nil => rfl
  | cons d ds ih =>
    have hd : isDigit d = true := hds d List.mem_cons_self
    have hpoint : decide (d = point) = false := decide_eq_false (isDigit_ne_point hd)
    rw [List.cons_append, spanNumber, hd, hpoint, Bool.true_or, if_pos rfl, Bool.or_false,
      ih fun d h => hds d (List.mem_cons_of_mem _ h)]
    rfl

theorem spanNumber_end {seen : Bool} {rest : Bytes} (hdigit : ∀ b ∈ rest.head?, ¬isDigit b)
    (hpoint : ∀ b ∈ rest.head?, b = point → seen = true) :
    spanNumber seen rest = ([], rest, seen) := by
  cases rest with
  | nil => rfl
  | cons b rest =>
    have hb : isDigit b = false := Bool.eq_false_iff.mpr (hdigit b rfl)
    have hstop : (isDigit b || (decide (b = point) && !seen)) = false := by
      rw [hb, Bool.false_or]
      by_cases h : b = point
      · rw [hpoint b rfl h, Bool.not_true, Bool.and_false]
      · rw [decide_eq_false h, Bool.false_and]
    rw [spanNumber, hstop, if_neg (by decide)]

theorem readString_twice (rest : Bytes) : readString (quote :: quote :: rest) =
    (readString rest).map fun r => (quote :: r.1, r.2) := by
  rw [readString.eq_def]
  exact (if_pos rfl).trans (if_pos rfl)

theorem readString_other {b : UInt8} (hb : b ≠ quote) (rest : Bytes) :
    readString (b :: rest) = (readString rest).map fun r => (b :: r.1, r.2) := by
  rw [readString.eq_def]
  exact if_neg hb

theorem readString_doubled (bs : Bytes) {rest : Bytes} (h : ∀ b ∈ rest.head?, b ≠ quote) :
    readString (doubled bs ++ quote :: rest) = some (bs, rest) := by
  induction bs with
  | nil =>
    cases rest with
    | nil => rfl
    | cons b rest =>
      change readString (quote :: b :: rest) = _
      rw [readString.eq_def]
      exact (if_pos rfl).trans (if_neg (h b rfl))
  | cons b bs ih =>
    by_cases hb : b = quote
    · subst hb
      have hstep : doubled (quote :: bs) ++ quote :: rest =
          quote :: quote :: (doubled bs ++ quote :: rest) := rfl
      rw [hstep, readString_twice, ih]
      rfl
    · have hstep : doubled (b :: bs) ++ quote :: rest =
          b :: (doubled bs ++ quote :: rest) := by
        rw [doubled, List.flatMap_cons, if_neg hb]
        rfl
      rw [hstep, readString_other hb, ih]
      rfl

theorem parseI64_spelled {ds : Bytes} {n : Int64} (h : (digitsValue ds : Int) = n.toInt) :
    parseI64 ds = some n := by
  have hle : (digitsValue ds : Int) ≤ Int64.maxValue.toInt := h ▸ n.toInt_le
  rw [parseI64, if_pos hle]
  have hn : Int64.ofInt (digitsValue ds : Int) = n := by rw [h, Int64.ofInt_toInt]
  rw [← hn]
  rfl

theorem parseF64_spelled {whole : Bytes} (hwhole : ∀ d ∈ whole, isDigit d) (fraction : Bytes) :
    parseF64 (whole ++ point :: fraction) =
      F64.lit (digitsValue (whole ++ fraction)) (10 ^ fraction.length) := by
  have hne : ∀ d ∈ whole, decide (d ≠ point) = true := fun d h =>
    decide_eq_true (isDigit_ne_point (hwhole d h))
  have hstop : ∀ b ∈ (point :: fraction).head?, decide (b ≠ point) = false := by
    rintro b ⟨⟩
    rfl
  rw [parseF64, take_run hne hstop, drop_run hne hstop]
  rfl

theorem nextTok_word {c : UInt8} {cs rest : Bytes} (start : ℕ) (hc : startsWord c)
    (hcs : ∀ b ∈ cs, inWord b) (hrest : ∀ b ∈ rest.head?, ¬inWord b) :
    nextTok start c (cs ++ rest) = .ok (.word (ofBytes (c :: cs)), rest) := by
  have hall : ∀ b ∈ c :: cs, inWord b := List.forall_mem_cons.mpr ⟨startsWord_inWord hc, hcs⟩
  have hstop : ∀ b ∈ rest.head?, inWord b = false := fun b h =>
    Bool.eq_false_iff.mpr (hrest b h)
  rw [nextTok, if_pos hc, ← List.cons_append, take_run hall hstop, drop_run hall hstop]

theorem nextTok_number {d : UInt8} {rest number after : Bytes} (start : ℕ) (hd : isDigit d)
    (hspan : spanNumber false (d :: rest) = (number, after, true)) :
    nextTok start d rest = .ok (.num (parseF64 number), after) := by
  rw [nextTok, if_neg (by rw [isDigit_not_startsWord hd]; decide), if_pos hd, hspan]
  rfl

theorem nextTok_integer {d : UInt8} {rest number after : Bytes} {n : Int64} (start : ℕ)
    (hd : isDigit d) (hspan : spanNumber false (d :: rest) = (number, after, false))
    (hn : parseI64 number = some n) : nextTok start d rest = .ok (.int n, after) := by
  rw [nextTok, if_neg (by rw [isDigit_not_startsWord hd]; decide), if_pos hd, hspan]
  simp only [Bool.false_eq_true, if_false, hn]

theorem nextTok_quote {s rest after : Bytes} (start : ℕ)
    (h : readString rest = some (s, after)) :
    nextTok start quote rest = .ok (.str (ofBytes s), after) := by
  have hword : startsWord quote = false := rfl
  have hdigit : isDigit quote = false := rfl
  simp only [nextTok, hword, hdigit, Bool.false_eq_true, if_false, if_true, h]

theorem nextTok_symbol {b : UInt8} {rest : Bytes} (start : ℕ) (hb : b ∈ symbols)
    (hrest : ∀ d ∈ rest.head?, ¬RunsOn (.sym (byteChar b)) d) :
    nextTok start b rest = .ok (.sym (byteChar b), rest) := by
  have hplain : ∀ b ∈ symbols, startsWord b = false ∧ isDigit b = false ∧ b ≠ quote ∧ b ≠ 33 := by
    simp [symbols, startsWord, isAlphabetic, isDigit, quote]
  obtain ⟨hword, hdigit, hquote, hbang⟩ := hplain b hb
  have hequal : ¬((b = 60 ∨ b = 62 ∨ b = 33) ∧ rest.head? = some 61) := by
    rintro ⟨rfl | rfl | rfl, h⟩
    · exact hrest 61 h (.inl ⟨.inl rfl, rfl⟩)
    · exact hrest 61 h (.inl ⟨.inr rfl, rfl⟩)
    · exact hbang rfl
  have hangle : ¬(b = 60 ∧ rest.head? = some 62) := by
    rintro ⟨rfl, h⟩
    exact hrest 62 h (.inr ⟨rfl, rfl⟩)
  simp only [nextTok, hword, hdigit, hquote, hequal, hangle, hb, Bool.false_eq_true, if_false,
    if_true]

theorem nextTok_op2 {c d : UInt8} (start : ℕ) (rest : Bytes)
    (h : (c, d) ∈ [(60, 61), (62, 61), (60, 62), (33, 61)]) :
    nextTok start c (d :: rest) = .ok (.op2 (ofBytes [c, d]), rest) := by
  simp only [List.mem_cons, List.not_mem_nil, or_false, Prod.mk.injEq] at h
  rcases h with ⟨rfl, rfl⟩ | ⟨rfl, rfl⟩ | ⟨rfl, rfl⟩ | ⟨rfl, rfl⟩
  all_goals rfl

/-- A token is read back from its text, where what follows does not run on. -/
theorem Spelled.nextTok {t : Tok} {c : UInt8} {cs rest : Bytes} (h : Spelled t (c :: cs))
    (hend : ∀ b ∈ rest.head?, ¬RunsOn t b) (start : ℕ) :
    nextTok start c (cs ++ rest) = .ok (readTok t, rest) := by
  generalize htext : c :: cs = text at h
  cases h with
  | word hc hcs =>
    cases htext
    exact nextTok_word start hc hcs hend
  | str s =>
    cases htext
    change Sql.nextTok start quote (doubled (utf8 s) ++ [quote] ++ rest) = _
    rw [List.append_assoc]
    exact nextTok_quote start (readString_doubled (utf8 s) hend)
  | int hne hds hn =>
    subst htext
    have hspan := spanNumber_digits hds false rest
    rw [spanNumber_end (fun b hb h => hend b hb (.inl h))
      fun b hb h => absurd (.inr h) (hend b hb), List.append_nil] at hspan
    exact nextTok_integer start (hds c List.mem_cons_self) hspan (parseI64_spelled hn)
  | @num whole fraction hne hwhole hfraction =>
    have hspan : spanNumber false (c :: cs ++ rest) = (whole ++ point :: fraction, rest, true) := by
      rw [htext, List.append_assoc, spanNumber_digits hwhole]
      have hpoint : spanNumber false (point :: (fraction ++ rest)) =
          (point :: (spanNumber true (fraction ++ rest)).1,
            (spanNumber true (fraction ++ rest)).2) := rfl
      rw [List.cons_append, hpoint, spanNumber_digits hfraction,
        spanNumber_end hend fun _ _ _ => rfl, List.append_nil]
    obtain ⟨d, ds, rfl⟩ := List.exists_cons_of_ne_nil hne
    cases htext
    have hread := nextTok_number start (hwhole c List.mem_cons_self) hspan
    rwa [parseF64_spelled hwhole] at hread
  | sym hb =>
    cases htext
    exact nextTok_symbol start hb hend
  | op2 h =>
    cases htext
    exact nextTok_op2 start rest h

/-! ## Reading a whole text -/

theorem Spelled.length_pos {t : Tok} {text : Bytes} (h : Spelled t text) : 0 < text.length := by
  obtain ⟨c, cs, rfl, -⟩ := h.starts
  exact Nat.succ_pos _

/-- A token takes a byte at least. -/
theorem Laid.length_le {ts : List Tok} {bs : Bytes} (h : Laid ts bs) : ts.length ≤ bs.length := by
  induction h with
  | done => exact Nat.zero_le _
  | remark => exact Nat.zero_le _
  | token _ htext _ _ ih =>
    have hpos := htext.length_pos
    rw [List.length_append, List.length_append, List.length_cons]
    omega

theorem tokensFrom_end {bs : Bytes} (h : skipWs bs = []) (len fuel : ℕ) :
    tokensFrom len fuel bs = .ok [] := by
  cases fuel with
  | zero => rfl
  | succ fuel => rw [tokensFrom, h]

theorem tokensFrom_step {bs rest after : Bytes} {c : UInt8} {len fuel : ℕ} {t : Tok}
    {toks : List (Tok × ℕ)} (hskip : skipWs bs = c :: rest)
    (hnext : nextTok (len - (rest.length + 1)) c rest = .ok (t, after))
    (htoks : tokensFrom len fuel after = .ok toks) :
    tokensFrom len (fuel + 1) bs = .ok ((t, len - (rest.length + 1)) :: toks) := by
  rw [tokensFrom, hskip]
  change (nextTok (len - (rest.length + 1)) c rest >>= fun r =>
    tokensFrom len fuel r.2 >>= fun toks =>
      Except.ok ((r.1, len - (rest.length + 1)) :: toks)) = _
  rw [hnext, ok_bind, htoks]
  rfl

/-- By induction on the layout, one token at a time. -/
theorem Laid.tokensFrom {ts : List Tok} {bs : Bytes} (h : Laid ts bs) (len fuel : ℕ)
    (hfuel : ts.length ≤ fuel) :
    ∃ toks, tokensFrom len fuel bs = .ok toks ∧ toks.map Prod.fst = ts.map readTok := by
  induction h generalizing fuel with
  | @done gap hgap =>
    have hskip := hgap.skipWs []
    rw [List.append_nil] at hskip
    exact ⟨[], tokensFrom_end hskip len fuel, rfl⟩
  | remark hgap hbody =>
    have hskip := (hgap.skipWs _).trans ((skipWs_comment _).trans (skipFrom_open hbody))
    exact ⟨[], tokensFrom_end hskip len fuel, rfl⟩
  | @token gap text rest t ts hgap htext _ hend ih =>
    obtain ⟨fuel, rfl⟩ := Nat.exists_eq_add_of_lt (Nat.lt_of_lt_of_le (Nat.succ_pos _) hfuel)
    rw [Nat.zero_add] at hfuel ⊢
    obtain ⟨toks, htoks, hfst⟩ := ih fuel (Nat.le_of_succ_le_succ hfuel)
    obtain ⟨c, cs, rfl, hspace, hdash⟩ := htext.starts
    have hskip : skipWs (gap ++ (c :: cs ++ rest)) = c :: (cs ++ rest) :=
      (hgap.skipWs _).trans (skipWs_token hspace hdash)
    have hstep := tokensFrom_step hskip (htext.nextTok hend (len - ((cs ++ rest).length + 1))) htoks
    exact ⟨_, hstep, congrArg (readTok t :: ·) hfst⟩

/-- The lexer finds the tokens that a statement spells. -/
theorem Laid.tokens {ts : List Tok} {sql : String} (h : Laid ts (utf8 sql)) :
    ∃ toks, tokens sql = .ok toks ∧ toks.map Prod.fst = ts.map readTok :=
  h.tokensFrom _ _ (Nat.le_succ_of_le h.length_le)

end Adabt.Ir.Sql
