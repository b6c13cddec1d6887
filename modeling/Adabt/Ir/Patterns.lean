import Adabt.Ir.Expr
import Mathlib.Data.List.Forall2

/-! # What a pattern matches

A pattern is read as a list of units, and its language is that of the texts that can be
cut into one run of characters for each unit. The matcher tries a wildcard on nothing
first and on one character more each time that fails. -/

set_option autoImplicit false

namespace Adabt.Ir

/-! ## The matcher as it recurses -/

/-- `matches_from`: a step drops a unit of the pattern, a character of the text, or both. -/
def matchesBacktracking : List Char → List Piece → Bool
  | text, [] => text.isEmpty
  | text, .anyRun :: pattern =>
    matchesBacktracking text pattern ||
      match text with
      | [] => false
      | _ :: rest => matchesBacktracking rest (.anyRun :: pattern)
  | [], .anyOne :: _ => false
  | _ :: rest, .anyOne :: pattern => matchesBacktracking rest pattern
  | [], .literal _ :: _ => false
  | c :: rest, .literal d :: pattern => c = d && matchesBacktracking rest pattern
termination_by text pattern => text.length + pattern.length

theorem matchesFrom_anyRun (pattern : List Piece) (c : Char) (rest : List Char) :
    matchesFrom (.anyRun :: pattern) (c :: rest) =
      (matchesFrom pattern (c :: rest) || matchesFrom (.anyRun :: pattern) rest) := rfl

theorem matchesBacktracking_eq (text : List Char) (pattern : List Piece) :
    matchesBacktracking text pattern = matchesFrom pattern text := by
  fun_induction matchesBacktracking text pattern with
  | case1 text => rfl
  | case2 text pattern ih ih' =>
    cases text with
    | nil => rw [ih, Bool.or_false]; rfl
    | cons c rest =>
      have ih' : matchesBacktracking rest (.anyRun :: pattern) = _ := ih'
      rw [ih, matchesFrom_anyRun, ← ih']
  | case3 pattern => rfl
  | case4 c rest pattern ih => exact ih
  | case5 d pattern => rfl
  | case6 c rest d pattern ih => rw [ih]; rfl

/-! ## Units -/

/-- How a pattern is read, unit by unit. -/
inductive Units : List Char → List Piece → Prop where
  | done : Units [] []
  | run {cs : List Char} {ps : List Piece} (h : Units cs ps) : Units ('%' :: cs) (.anyRun :: ps)
  | one {cs : List Char} {ps : List Piece} (h : Units cs ps) : Units ('_' :: cs) (.anyOne :: ps)
  | escaped (c : Char) {cs : List Char} {ps : List Piece} (h : Units cs ps) :
      Units ('\\' :: c :: cs) (.literal c :: ps)
  | trailing : Units ['\\'] [.literal '\\']
  | plain {c : Char} {cs : List Char} {ps : List Piece} (hrun : c ≠ '%') (hone : c ≠ '_')
      (hescape : c ≠ '\\') (h : Units cs ps) : Units (c :: cs) (.literal c :: ps)

theorem units_parsePieces (cs : List Char) : Units cs (parsePieces cs) := by
  fun_induction parsePieces cs with
  | case1 => exact .done
  | case2 rest ih => exact .run ih
  | case3 rest ih => exact .one ih
  | case4 => exact .trailing
  | case5 c rest ih => exact .escaped c ih
  | case6 c rest hrun hone htrailing hescape ih =>
    refine .plain (fun h => hrun h) (fun h => hone h) (fun h => ?_) ih
    cases rest with
    | nil => exact htrailing h rfl
    | cons d rest => exact hescape d rest h rfl

theorem parsePieces_plain {c : Char} (hrun : c ≠ '%') (hone : c ≠ '_') (hescape : c ≠ '\\')
    (cs : List Char) : parsePieces (c :: cs) = .literal c :: parsePieces cs := by
  rw [parsePieces.eq_def]
  split <;> simp_all

theorem Units.parse {cs : List Char} {ps : List Piece} (h : Units cs ps) : parsePieces cs = ps := by
  induction h with
  | done => rfl
  | run _ ih => rw [parsePieces, ih]
  | one _ ih => rw [parsePieces, ih]
  | escaped c _ ih => rw [parsePieces, ih]
  | trailing => rfl
  | plain hrun hone hescape _ ih => rw [parsePieces_plain hrun hone hescape, ih]

/-- A pattern is read in one way. -/
theorem units_iff {cs : List Char} {ps : List Piece} : Units cs ps ↔ ps = parsePieces cs :=
  ⟨fun h => h.parse.symm, fun h => h ▸ units_parsePieces cs⟩

/-! ## Texts -/

/-- The runs of characters that a unit takes. -/
def Piece.Takes : Piece → List Char → Prop
  | .anyRun, _ => True
  | .anyOne, run => ∃ c, run = [c]
  | .literal c, run => run = [c]

/-- The text can be cut into one run for each unit. -/
def Cut (pieces : List Piece) (text : List Char) : Prop :=
  ∃ runs : List (List Char), runs.flatten = text ∧ List.Forall₂ Piece.Takes pieces runs

theorem cut_nil {text : List Char} : Cut [] text ↔ text = [] := by
  constructor
  · rintro ⟨runs, rfl, h⟩
    cases h
    rfl
  · rintro rfl
    exact ⟨[], rfl, .nil⟩

theorem cut_cons {p : Piece} {pieces : List Piece} {text : List Char} :
    Cut (p :: pieces) text ↔ ∃ run rest, text = run ++ rest ∧ p.Takes run ∧ Cut pieces rest := by
  constructor
  · rintro ⟨runs, rfl, h⟩
    cases h with
    | cons hp hrest => exact ⟨_, _, rfl, hp, _, rfl, hrest⟩
  · rintro ⟨run, rest, rfl, hp, runs, rfl, hrest⟩
    exact ⟨run :: runs, rfl, .cons hp hrest⟩

theorem matchesSuffix_iff {matched : List Char → Bool} {text : List Char} :
    matchesSuffix matched text = true ↔ ∃ run rest, text = run ++ rest ∧ matched rest = true := by
  induction text with
  | nil =>
    constructor
    · exact fun h => ⟨[], [], rfl, h⟩
    · rintro ⟨run, rest, heq, h⟩
      obtain ⟨-, rfl⟩ := List.append_eq_nil_iff.mp heq.symm
      exact h
  | cons c text ih =>
    rw [matchesSuffix, Bool.or_eq_true, ih]
    constructor
    · rintro (h | ⟨run, rest, rfl, h⟩)
      · exact ⟨[], c :: text, rfl, h⟩
      · exact ⟨c :: run, rest, rfl, h⟩
    · rintro ⟨run, rest, heq, h⟩
      cases run with
      | nil => exact .inl (heq ▸ h)
      | cons d run => exact .inr ⟨run, rest, (List.cons.inj heq).2, h⟩

/-- The matcher finds a cut just if there is one. By induction on the pattern, with a
choice of the run at every wildcard. -/
theorem matchesFrom_iff {pieces : List Piece} {text : List Char} :
    matchesFrom pieces text = true ↔ Cut pieces text := by
  induction pieces generalizing text with
  | nil => rw [matchesFrom, List.isEmpty_iff, cut_nil]
  | cons p pieces ih =>
    rw [cut_cons]
    cases p with
    | anyRun =>
      rw [matchesFrom, matchesSuffix_iff]
      exact exists₂_congr fun run rest => and_congr_right fun _ =>
        ih.trans (and_iff_right trivial).symm
    | anyOne =>
      cases text with
      | nil =>
        refine iff_of_false (fun h => by cases h) ?_
        rintro ⟨run, rest, heq, ⟨c, rfl⟩, -⟩
        cases heq
      | cons c text =>
        constructor
        · exact fun h => ⟨[c], text, rfl, ⟨c, rfl⟩, ih.mp h⟩
        · rintro ⟨run, rest, heq, ⟨d, rfl⟩, h⟩
          cases heq
          exact ih.mpr h
    | literal d =>
      cases text with
      | nil =>
        refine iff_of_false (fun h => by cases h) ?_
        rintro ⟨run, rest, heq, rfl, -⟩
        cases heq
      | cons c text =>
        rw [matchesFrom, Bool.and_eq_true, decide_eq_true_eq]
        constructor
        · rintro ⟨rfl, h⟩
          exact ⟨[c], text, rfl, rfl, ih.mp h⟩
        · rintro ⟨run, rest, heq, rfl, h⟩
          cases heq
          exact ⟨rfl, ih.mpr h⟩

/-! ## Patterns without wildcards -/

/-- A character of a pattern that stands for itself. -/
def escapeChar (c : Char) : List Char := if c = '%' ∨ c = '_' ∨ c = '\\' then ['\\', c] else [c]

/-- A backslash before every `%`, `_` and backslash. -/
def escape (s : String) : String := String.ofList (s.toList.flatMap escapeChar)

theorem units_escape (cs : List Char) : Units (cs.flatMap escapeChar) (cs.map .literal) := by
  induction cs with
  | nil => exact .done
  | cons c cs ih =>
    rw [List.flatMap_cons, List.map_cons, escapeChar]
    split_ifs with h
    · exact .escaped c ih
    · obtain ⟨hrun, hone, hescape⟩ : c ≠ '%' ∧ c ≠ '_' ∧ c ≠ '\\' := by
        simpa only [not_or] using h
      exact .plain hrun hone hescape ih

theorem cut_literals {cs text : List Char} : Cut (cs.map .literal) text ↔ text = cs := by
  induction cs generalizing text with
  | nil => exact cut_nil
  | cons c cs ih =>
    rw [List.map_cons, cut_cons]
    constructor
    · rintro ⟨run, rest, rfl, rfl, h⟩
      rw [ih.mp h]
      rfl
    · rintro rfl
      exact ⟨[c], cs, rfl, rfl, ih.mpr rfl⟩

theorem likeMatches_iff (text pattern : String) : likeMatches text pattern = true ↔
    ∃ pieces, Units pattern.toList pieces ∧ Cut pieces text.toList := by
  rw [likeMatches, matchesFrom_iff]
  constructor
  · exact fun h => ⟨_, units_parsePieces _, h⟩
  · rintro ⟨pieces, hunits, h⟩
    rwa [parseLikePattern, hunits.parse]

theorem likeMatches_escape (text s : String) : likeMatches text (escape s) = true ↔ text = s := by
  rw [likeMatches, matchesFrom_iff, parseLikePattern, escape, String.toList_ofList,
    (units_escape s.toList).parse, cut_literals, String.toList_inj]

/-- The matcher stops on every text and pattern, and matches the language of the pattern. -/
theorem like_matches_language :
    (∀ text pattern : String,
      matchesBacktracking text.toList (parseLikePattern pattern) = true ↔
        ∃ pieces, Units pattern.toList pieces ∧ Cut pieces text.toList) ∧
      ∀ text s : String,
        matchesBacktracking text.toList (parseLikePattern (escape s)) = true ↔ text = s := by
  constructor
  · intro text pattern
    rw [matchesBacktracking_eq]
    exact likeMatches_iff text pattern
  · intro text s
    rw [matchesBacktracking_eq]
    exact likeMatches_escape text s

end Adabt.Ir
