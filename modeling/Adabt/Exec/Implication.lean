import Adabt.Core.Alike
import Adabt.Exec.AccessPaths

/-! # When a filter implies a partial index's condition

The planner takes a conjunct for the condition when the two are equal as
expressions, and literals are equal as values. Where the literals are spelled alike
too, the two evaluate alike on every record. -/

set_option autoImplicit false

namespace Adabt.Ir
open Adabt.Core Adabt.Library

namespace Expr

def Literals (e e' : Expr) : Prop :=
  ∃ v w, e = literal v ∧ e' = literal w ∧ v.Interchangeable w

mutual

/-- One expression but for literals, which compare alike where they are compared and
are spelled alike elsewhere. -/
def Alike : Expr → Expr → Prop
  | literal v, e => ∃ w, e = literal w ∧ v.Alike w
  | field f, e => e = field f
  | compare op lhs rhs, e => ∃ lhs' rhs', e = compare op lhs' rhs' ∧
      (Alike lhs lhs' ∨ Literals lhs lhs') ∧ (Alike rhs rhs' ∨ Literals rhs rhs')
  | and parts, e => ∃ parts', e = and parts' ∧ AlikeAll parts parts'
  | or parts, e => ∃ parts', e = or parts' ∧ AlikeAll parts parts'
  | not inner, e => ∃ inner', e = not inner' ∧ Alike inner inner'
  | isNull inner, e => ∃ inner', e = isNull inner' ∧ Alike inner inner'
  | isNotNull inner, e => ∃ inner', e = isNotNull inner' ∧ Alike inner inner'
  | arith op lhs rhs, e => ∃ lhs' rhs', e = arith op lhs' rhs' ∧ Alike lhs lhs' ∧ Alike rhs rhs'
  | within needle list, e => ∃ needle' list', e = within needle' list' ∧
      (Alike needle needle' ∨ Literals needle needle') ∧ ComparedAll list list'
  | like text pattern, e => ∃ text', e = like text' pattern ∧ Alike text text'

def AlikeAll : List Expr → List Expr → Prop
  | [], es => es = []
  | e :: rest, es => ∃ e' rest', es = e' :: rest' ∧ Alike e e' ∧ AlikeAll rest rest'

def ComparedAll : List Expr → List Expr → Prop
  | [], es => es = []
  | e :: rest, es => ∃ e' rest', es = e' :: rest' ∧ (Alike e e' ∨ Literals e e') ∧
      ComparedAll rest rest'

end

/-! ## Expressions that are alike evaluate alike -/

theorem truthOf_alike {x y : Option Value} (h : Option.Rel Value.Alike x y) :
    truthOf x = truthOf y := by
  cases h with
  | none => rfl
  | @some v w h =>
    rcases h with rfl | ⟨hv, hw, -⟩
    · rfl
    · have hnumber : ∀ u : Value, u.rank = 2 → truthOf (some u) = .unknown := by
        intro u hu
        cases u with
        | bool b => cases hu
        | _ => rfl
      rw [hnumber v hv, hnumber w hw]

theorem compareValues_alike (op : CmpOp) {x y x' y' : Option Value}
    (hx : Option.Rel Value.Interchangeable x x') (hy : Option.Rel Value.Interchangeable y y') :
    compareValues op x y = compareValues op x' y' := by
  cases hx with
  | none => rfl
  | some hv =>
    cases hy with
    | none => rfl
    | some hw => rw [compareValues, compareValues, hv.1, hw.1, hv.cmp_eq hw]

theorem nullTest_alike {x y : Option Value} (h : Option.Rel Value.Alike x y) :
    nullTest x = nullTest y := by
  cases h with
  | none => rfl
  | some h => rw [nullTest, nullTest, h.isNull_eq]

theorem membership_alike {n n' : Value} (hn : n.Interchangeable n') {xs ys : List (Option Value)}
    (h : List.Forall₂ (Option.Rel Value.Interchangeable) xs ys) (saw : Bool) :
    membership n saw xs = membership n' saw ys := by
  induction h generalizing saw with
  | nil => rfl
  | @cons x y xs ys hxy _ ih =>
    cases hxy with
    | none => exact ih true
    | @some v w hv =>
      have heqv : v.Eqv n ↔ w.Eqv n' := by rw [Value.Eqv, Value.Eqv, hv.cmp_eq hn]
      simp only [membership, hv.1, heqv, ih]

theorem withinValues_alike {x y : Option Value} (h : Option.Rel Value.Interchangeable x y)
    {xs ys : List (Option Value)} (hs : List.Forall₂ (Option.Rel Value.Interchangeable) xs ys) :
    withinValues x xs = withinValues y ys := by
  cases h with
  | none => rfl
  | @some v w h =>
    rw [withinValues, withinValues, Option.filter_some, Option.filter_some, h.1]
    cases w.isNull with
    | true => rfl
    | false => exact membership_alike h hs false

theorem likeValue_alike (matched : String → Bool) {x y : Option Value}
    (h : Option.Rel Value.Alike x y) : likeValue matched x = likeValue matched y := by
  cases h with
  | none => rfl
  | @some v w h =>
    rcases h with rfl | ⟨hv, hw, -⟩
    · rfl
    · have hnumber : ∀ u : Value, u.rank = 2 → likeValue matched (some u) = .unknown := by
        intro u hu
        cases u with
        | str s => cases hu
        | _ => rfl
      rw [hnumber v hv, hnumber w hw]

variable (rec : Record)

theorem value_alike : (e e' : Expr) → Alike e e' →
    Option.Rel Value.Alike (value rec e) (value rec e')
  | literal v, _, h => by
    obtain ⟨w, rfl, h⟩ := h
    exact .some h
  | field f, _, h => by
    obtain rfl : _ = field f := h
    cases value rec (field f) with
    | none => exact .none
    | some v => exact .some (.refl v)
  | arith op lhs rhs, _, h => by
    obtain ⟨lhs', rhs', rfl, hl, hr⟩ := h
    have hlhs := value_alike lhs lhs' hl
    have hrhs := value_alike rhs rhs' hr
    rw [value, value]
    generalize value rec lhs = x at hlhs
    generalize value rec lhs' = x' at hlhs
    generalize value rec rhs = y at hrhs
    generalize value rec rhs' = y' at hrhs
    cases hlhs with
    | none => exact .none
    | some hx =>
      cases hrhs with
      | none => exact .none
      | some hy => exact Value.checkedArith_alike op hx hy
  | compare _ _ _, _, h => by
    obtain ⟨_, _, rfl, _⟩ := h
    exact .none
  | and _, _, h | or _, _, h | not _, _, h | isNull _, _, h | isNotNull _, _, h
  | like _ _, _, h => by
    obtain ⟨_, rfl, _⟩ := h
    exact .none
  | within _ _, _, h => by
    obtain ⟨_, _, rfl, _⟩ := h
    exact .none

theorem value_compared {e e' : Expr} (h : Alike e e' ∨ Literals e e') :
    Option.Rel Value.Interchangeable (value rec e) (value rec e') := by
  rcases h with h | ⟨v, w, rfl, rfl, h⟩
  · have hvalue := value_alike rec e e' h
    generalize value rec e = x at hvalue
    generalize value rec e' = y at hvalue
    cases hvalue with
    | none => exact .none
    | some hv => exact .some hv.interchangeable
  · exact .some h

theorem values_compared : (es es' : List Expr) → ComparedAll es es' →
    List.Forall₂ (Option.Rel Value.Interchangeable) (es.map (value rec)) (es'.map (value rec))
  | [], _, h => by
    obtain rfl : _ = [] := h
    exact .nil
  | e :: es, _, h => by
    obtain ⟨e', es', rfl, he, hes⟩ := h
    exact .cons (value_compared rec he) (values_compared es es' hes)

/-- A literal that is no truth value has no truth. -/
theorem evaluate_literal (v : Value) : evaluate rec (literal v) = truthOf (some v) := by
  cases v with
  | _ => rfl

mutual

theorem evaluate_alike : (e e' : Expr) → Alike e e' → evaluate rec e = evaluate rec e'
  | literal v, _, h => by
    obtain ⟨w, rfl, h⟩ := h
    rw [evaluate_literal, evaluate_literal, truthOf_alike (.some h)]
  | field f, _, h => by
    obtain rfl : _ = field f := h
    rfl
  | compare op lhs rhs, _, h => by
    obtain ⟨lhs', rhs', rfl, hl, hr⟩ := h
    exact compareValues_alike op (value_compared rec hl) (value_compared rec hr)
  | and parts, _, h => by
    obtain ⟨parts', rfl, h⟩ := h
    rw [evaluate, evaluate, evaluateAll_alike parts parts' h]
  | or parts, _, h => by
    obtain ⟨parts', rfl, h⟩ := h
    rw [evaluate, evaluate, evaluateAll_alike parts parts' h]
  | not inner, _, h => by
    obtain ⟨inner', rfl, h⟩ := h
    rw [evaluate, evaluate, evaluate_alike inner inner' h]
  | isNull inner, _, h => by
    obtain ⟨inner', rfl, h⟩ := h
    exact nullTest_alike (value_alike rec inner inner' h)
  | isNotNull inner, _, h => by
    obtain ⟨inner', rfl, h⟩ := h
    exact congrArg Truth.not (nullTest_alike (value_alike rec inner inner' h))
  | arith op lhs rhs, _, h => by
    obtain ⟨lhs', rhs', rfl, hl, hr⟩ := h
    exact truthOf_alike (value_alike rec (arith op lhs rhs) _ ⟨lhs', rhs', rfl, hl, hr⟩)
  | within needle list, _, h => by
    obtain ⟨needle', list', rfl, hn, hl⟩ := h
    exact withinValues_alike (value_compared rec hn) (values_compared rec list list' hl)
  | like text pattern, _, h => by
    obtain ⟨text', rfl, h⟩ := h
    exact likeValue_alike _ (value_alike rec text text' h)

theorem evaluateAll_alike : (es es' : List Expr) → AlikeAll es es' →
    evaluateAll rec es = evaluateAll rec es'
  | [], _, h => by
    obtain rfl : _ = [] := h
    rfl
  | e :: es, _, h => by
    obtain ⟨e', es', rfl, he, hes⟩ := h
    rw [evaluateAll, evaluateAll, evaluate_alike e e' he, evaluateAll_alike es es' hes]

end

/-! ## The conjuncts of a predicate -/

/-- A predicate, or a part of the conjunction it is. -/
inductive Conjunct (e : Expr) : Expr → Prop
  | whole : Conjunct e e
  | part {p : Expr} {parts : List Expr} (hmem : p ∈ parts) (hp : Conjunct e p) :
    Conjunct e (and parts)

/-- A record that passes satisfies every conjunct. -/
theorem Conjunct.true_of_true {e p : Expr} (h : Conjunct e p) {rec : Record}
    (hp : evaluate rec p = .true) : evaluate rec e = .true := by
  induction h with
  | whole => exact hp
  | part hmem _ ih => exact ih (part_true hp _ hmem)

end Expr

end Adabt.Ir

namespace Adabt.Exec
open Adabt.Core Adabt.Ir Adabt.Indexing Adabt.Library

theorem sameExpr_literals {e e' : Expr} (h : Expr.Literals e e') : sameExpr e e' = true := by
  obtain ⟨v, w, rfl, rfl, h⟩ := h
  exact decide_eq_true h.eqv

mutual

/-- Expressions that are alike are equal as the planner compares them. -/
theorem sameExpr_alike : (e e' : Expr) → Expr.Alike e e' → sameExpr e e' = true
  | .literal v, _, h => by
    obtain ⟨w, rfl, h⟩ := h
    exact decide_eq_true h.interchangeable.eqv
  | .field f, _, h => by
    obtain rfl : _ = Expr.field f := h
    simp [sameExpr]
  | .compare op lhs rhs, _, h => by
    obtain ⟨lhs', rhs', rfl, hl, hr⟩ := h
    have hlhs := hl.elim (sameExpr_alike lhs lhs') sameExpr_literals
    have hrhs := hr.elim (sameExpr_alike rhs rhs') sameExpr_literals
    simp [sameExpr, hlhs, hrhs]
  | .and parts, _, h => by
    obtain ⟨parts', rfl, h⟩ := h
    exact sameExprs_alike parts parts' h
  | .or parts, _, h => by
    obtain ⟨parts', rfl, h⟩ := h
    exact sameExprs_alike parts parts' h
  | .not inner, _, h => by
    obtain ⟨inner', rfl, h⟩ := h
    exact sameExpr_alike inner inner' h
  | .isNull inner, _, h => by
    obtain ⟨inner', rfl, h⟩ := h
    exact sameExpr_alike inner inner' h
  | .isNotNull inner, _, h => by
    obtain ⟨inner', rfl, h⟩ := h
    exact sameExpr_alike inner inner' h
  | .arith op lhs rhs, _, h => by
    obtain ⟨lhs', rhs', rfl, hl, hr⟩ := h
    simp [sameExpr, sameExpr_alike lhs lhs' hl, sameExpr_alike rhs rhs' hr]
  | .within needle list, _, h => by
    obtain ⟨needle', list', rfl, hn, hl⟩ := h
    have hneedle := hn.elim (sameExpr_alike needle needle') sameExpr_literals
    simp [sameExpr, hneedle, sameExprs_compared list list' hl]
  | .like text pattern, _, h => by
    obtain ⟨text', rfl, h⟩ := h
    simp [sameExpr, sameExpr_alike text text' h]

theorem sameExprs_alike : (es es' : List Expr) → Expr.AlikeAll es es' → sameExprs es es' = true
  | [], _, h => by
    obtain rfl : _ = [] := h
    rfl
  | e :: es, _, h => by
    obtain ⟨e', es', rfl, he, hes⟩ := h
    simp [sameExprs, sameExpr_alike e e' he, sameExprs_alike es es' hes]

theorem sameExprs_compared : (es es' : List Expr) → Expr.ComparedAll es es' →
    sameExprs es es' = true
  | [], _, h => by
    obtain rfl : _ = [] := h
    rfl
  | e :: es, _, h => by
    obtain ⟨e', es', rfl, he, hes⟩ := h
    have hhead := he.elim (sameExpr_alike e e') sameExpr_literals
    simp [sameExprs, hhead, sameExprs_compared es es' hes]

end

theorem impliesAny_of_mem {c p : Expr} {parts : List Expr} (hmem : p ∈ parts)
    (h : implies c p = true) : impliesAny c parts = true := by
  induction parts with
  | nil => cases hmem
  | cons e rest ih =>
    rw [impliesAny, Bool.or_eq_true]
    rcases List.mem_cons.mp hmem with rfl | hmem
    · exact .inl h
    · exact .inr (ih hmem)

/-- The planner looks for the condition among all conjuncts. -/
theorem implies_of_conjunct {c e p : Expr} (h : Expr.Conjunct e p) (he : sameExpr e c = true) :
    implies c p = true := by
  induction h with
  | whole =>
    cases e with
    | and parts => exact Bool.or_eq_true_iff.mpr (.inl he)
    | _ => exact he
  | part hmem _ ih => rw [implies, impliesAny_of_mem hmem ih, Bool.or_true]

/-- With a conjunct that is the condition but for literals like these, the planner takes
the partial index, and each record that passes the filter is one the index admits. -/
theorem implication_sound {p c : Expr} (h : ∃ e, Expr.Conjunct e p ∧ Expr.Alike e c) :
    implies c p = true ∧ (∀ rec, p.evaluate rec = .true → c.evaluate rec = .true) ∧
      ∀ (i : Index) (f encoded : String), i.shape = .partialIndex f c encoded →
        ∀ records, AdmitsKept i records p := by
  obtain ⟨e, hconj, halike⟩ := h
  have htrue : ∀ rec, p.evaluate rec = .true → c.evaluate rec = .true := fun rec hp => by
    rw [← Expr.evaluate_alike rec e c halike]
    exact hconj.true_of_true hp
  refine ⟨implies_of_conjunct hconj (sameExpr_alike e c halike), htrue, ?_⟩
  intro i f encoded hshape records r _ hm
  rw [hshape]
  change c.matches' r.2 = true
  rw [Expr.matches', htrue r.2 (matches_true hm)]
  rfl

/-- `price * 0.5 = 0.2`, with a number of zeros behind the factor. -/
def discounted (half : Value) : Expr :=
  .compare .eq (.arith .mul (.field "price") (.literal half)) (.literal (.decimal 2 1))

/-- The discounted rows of one customer. -/
def customerDiscounted : Expr :=
  .and [.compare .eq (.field "customer") (.literal (.u64 7)), discounted (.decimal 5 1)]

theorem discount_implied : implies (discounted (.decimal 5 1)) customerDiscounted = true ∧
    (∀ rec, customerDiscounted.evaluate rec = .true →
      (discounted (.decimal 5 1)).evaluate rec = .true) ∧
    ∀ (i : Index) (f encoded : String),
      i.shape = .partialIndex f (discounted (.decimal 5 1)) encoded →
        ∀ records, AdmitsKept i records customerDiscounted :=
  implication_sound ⟨discounted (.decimal 5 1), .part (by simp) .whole,
    ⟨_, _, rfl, .inl ⟨_, _, rfl, rfl, _, rfl, .refl _⟩, .inl ⟨_, rfl, .refl _⟩⟩⟩

def halfPriced : Record := (∅ : Record).set "price" ⟨.decimal 5 1, trivial⟩

/-- A zero more behind the factor, and the product keeps a digit more: the condition
refuses a row that the filter keeps. -/
theorem discount_not_implied : implies (discounted (.decimal 50 2)) (discounted (.decimal 5 1)) =
      true ∧ (discounted (.decimal 5 1)).evaluate halfPriced = .true ∧
    (discounted (.decimal 50 2)).evaluate halfPriced = .false := by
  decide

end Adabt.Exec
