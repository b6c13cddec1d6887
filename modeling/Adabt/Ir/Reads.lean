import Adabt.Core.ValueOrder
import Adabt.Indexing.Index
import Adabt.Ir.Plan
import Adabt.Library.Selection

/-! # What a predicate reads and pins

The fields an expression reads decide its value. The equalities and bounds on a
single field are taken from the conjuncts of a predicate; a record the predicate
keeps satisfies every one of them. -/

set_option autoImplicit false

namespace Adabt.Ir
open Adabt.Core Adabt.Library
open Adabt.Indexing (Bound aboveLow belowHigh)

def addField (out : List String) (f : String) : List String := if f ∈ out then out else out ++ [f]

namespace Expr

mutual

def referencedFields (out : List String) : Expr → List String
  | field f => addField out f
  | literal _ => out
  | compare _ lhs rhs => referencedFields (referencedFields out lhs) rhs
  | and parts | or parts => referencedAll out parts
  | not inner | isNull inner | isNotNull inner => referencedFields out inner
  | arith _ lhs rhs => referencedFields (referencedFields out lhs) rhs
  | within needle list => referencedAll (referencedFields out needle) list
  | like text _ => referencedFields out text

def referencedAll (out : List String) : List Expr → List String
  | [] => out
  | e :: rest => referencedAll (referencedFields out e) rest

end

mutual

/-- The fields the conjuncts set equal to a literal, in order. -/
def equalityConstraints : Expr → List (String × Value)
  | compare .eq lhs rhs => match lhs, rhs with
    | field f, literal v | literal v, field f => [(f, v)]
    | _, _ => []
  | and parts => equalitiesOfAll parts
  | _ => []

def equalitiesOfAll : List Expr → List (String × Value)
  | [] => []
  | e :: rest => equalityConstraints e ++ equalitiesOfAll rest

end

mutual

/-- Fields a predicate constrains with an inequality, in appearance order. -/
def rangeFields (out : List String) : Expr → List String
  | compare op lhs _ => match op, lhs with
    | .eq, _ | .ne, _ => out
    | _, field f => addField out f
    | _, _ => out
  | and parts => rangeFieldsOfAll out parts
  | _ => out

def rangeFieldsOfAll (out : List String) : List Expr → List String
  | [] => out
  | e :: rest => rangeFieldsOfAll (rangeFields out e) rest

end

end Expr

/-- The bounds found so far, and whether any was. -/
structure RangeWalk where
  lo : Bound
  hi : Bound
  found : Bool

/-- A later bound on the same side replaces an earlier one. -/
def RangeWalk.bound (w : RangeWalk) (op : CmpOp) (v : Value) : RangeWalk :=
  match op with
  | .gt => ⟨.excluded v, w.hi, true⟩
  | .ge => ⟨.included v, w.hi, true⟩
  | .lt => ⟨w.lo, .excluded v, true⟩
  | .le => ⟨w.lo, .included v, true⟩
  | _ => w

/-- A comparison of the field with a literal bounds it. -/
def RangeWalk.compared (w : RangeWalk) (name : String) (op : CmpOp) : Expr → Expr → RangeWalk
  | .field f, .literal v => if f = name then w.bound op v else w
  | _, _ => w

namespace Expr

mutual

def rangeWalk (name : String) (w : RangeWalk) : Expr → RangeWalk
  | compare op lhs rhs => w.compared name op lhs rhs
  | and parts => rangeWalkAll name w parts
  | _ => w

def rangeWalkAll (name : String) (w : RangeWalk) : List Expr → RangeWalk
  | [] => w
  | e :: rest => rangeWalkAll name (rangeWalk name w e) rest

end

/-- Range bounds a predicate places on a single field, if any. -/
def rangeConstraint (e : Expr) (name : String) : Option (Bound × Bound) :=
  let w := rangeWalk name ⟨.unbounded, .unbounded, false⟩ e
  if w.found then some (w.lo, w.hi) else none

/-! ## The fields read decide the value -/

theorem subset_addField (out : List String) (f : String) : out ⊆ addField out f := by
  unfold addField
  split_ifs
  · exact fun _ h => h
  · exact List.subset_append_left _ _

theorem mem_addField (out : List String) (f : String) : f ∈ addField out f := by
  unfold addField
  split_ifs with h
  · exact h
  · simp

mutual

theorem subset_referencedFields (out : List String) : (e : Expr) → out ⊆ referencedFields out e
  | field f => subset_addField out f
  | literal _ => fun _ h => h
  | compare _ lhs rhs | arith _ lhs rhs =>
    List.Subset.trans (subset_referencedFields out lhs) (subset_referencedFields _ rhs)
  | and parts | or parts => subset_referencedAll out parts
  | not inner | isNull inner | isNotNull inner => subset_referencedFields out inner
  | within needle list =>
    List.Subset.trans (subset_referencedFields out needle) (subset_referencedAll _ list)
  | like text _ => subset_referencedFields out text

theorem subset_referencedAll (out : List String) : (es : List Expr) → out ⊆ referencedAll out es
  | [] => fun _ h => h
  | e :: rest => List.Subset.trans (subset_referencedFields out e) (subset_referencedAll _ rest)

end

theorem mem_of_addField {out : List String} {f g : String} (h : g ∈ addField out f) :
    g ∈ out ∨ g = f := by
  unfold addField at h
  split_ifs at h
  · exact .inl h
  · simpa using h

theorem addField_mono {small large : List String} (h : small ⊆ large) (f : String) :
    addField small f ⊆ addField large f := by
  intro g hg
  rcases mem_of_addField hg with hg | rfl
  · exact subset_addField large f (h hg)
  · exact mem_addField large g

mutual

theorem referencedFields_mono {small large : List String} (h : small ⊆ large) :
    (e : Expr) → referencedFields small e ⊆ referencedFields large e
  | field f => addField_mono h f
  | literal _ => h
  | compare _ lhs rhs | arith _ lhs rhs => referencedFields_mono (referencedFields_mono h lhs) rhs
  | and parts | or parts => referencedAll_mono h parts
  | not inner | isNull inner | isNotNull inner => referencedFields_mono h inner
  | within needle list => referencedAll_mono (referencedFields_mono h needle) list
  | like text _ => referencedFields_mono h text

theorem referencedAll_mono {small large : List String} (h : small ⊆ large) :
    (es : List Expr) → referencedAll small es ⊆ referencedAll large es
  | [] => h
  | e :: rest => referencedAll_mono (referencedFields_mono h e) rest

end

/-- The two records hold the same under each of the names. -/
def Agree (names : List String) (a b : Record) : Prop := ∀ f ∈ names, a.get f = b.get f

theorem Agree.mono {small large : List String} {a b : Record} (h : Agree large a b)
    (hs : small ⊆ large) : Agree small a b := fun f hf => h f (hs hf)

variable {a b : Record}

theorem value_agree (out : List String) : (e : Expr) → Agree (referencedFields out e) a b →
    value a e = value b e
  | field f => fun h => by rw [value, value, h f (mem_addField out f)]
  | arith op lhs rhs => fun h => by
    rw [value, value, value_agree out lhs (h.mono (subset_referencedFields _ rhs)),
      value_agree _ rhs h]
  | literal _ | compare _ _ _ | and _ | or _ | not _ | isNull _ | isNotNull _ | within _ _
  | like _ _ => fun _ => by simp only [value]

theorem values_agree (out : List String) (es : List Expr) (h : Agree (referencedAll out es) a b) :
    es.map (value a) = es.map (value b) := by
  induction es generalizing out with
  | nil => rfl
  | cons e rest ih =>
    rw [List.map_cons, List.map_cons, ih _ h,
      value_agree out e (h.mono (subset_referencedAll _ rest))]

mutual

theorem evaluate_agree (out : List String) : (e : Expr) → Agree (referencedFields out e) a b →
    evaluate a e = evaluate b e
  | literal v => fun _ => by cases v <;> simp only [evaluate, value]
  | field f => fun h => by rw [evaluate, evaluate, value_agree out (field f) h]
  | compare op lhs rhs => fun h => by
    rw [evaluate, evaluate, value_agree out lhs (h.mono (subset_referencedFields _ rhs)),
      value_agree _ rhs h]
  | and parts => fun h => by rw [evaluate, evaluate, evaluateAll_agree out parts h]
  | or parts => fun h => by rw [evaluate, evaluate, evaluateAll_agree out parts h]
  | not inner => fun h => by rw [evaluate, evaluate, evaluate_agree out inner h]
  | isNull inner => fun h => by rw [evaluate, evaluate, value_agree out inner h]
  | isNotNull inner => fun h => by rw [evaluate, evaluate, value_agree out inner h]
  | arith op lhs rhs => fun h => by rw [evaluate, evaluate, value_agree out (arith op lhs rhs) h]
  | within needle list => fun h => by
    rw [evaluate, evaluate, value_agree out needle (h.mono (subset_referencedAll _ list)),
      values_agree _ list h]
  | like text pattern => fun h => by rw [evaluate, evaluate, value_agree out text h]

theorem evaluateAll_agree (out : List String) : (es : List Expr) →
    Agree (referencedAll out es) a b → evaluateAll a es = evaluateAll b es
  | [] => fun _ => rfl
  | e :: rest => fun h => by
    rw [evaluateAll, evaluateAll, evaluate_agree out e (h.mono (subset_referencedAll _ rest)),
      evaluateAll_agree _ rest h]

end

theorem matches_agree {e : Expr} (h : Agree (e.referencedFields []) a b) :
    e.matches' a = e.matches' b := by
  rw [matches', matches', evaluate_agree [] e h]

/-! ## A record that passes satisfies every conjunct -/

theorem conjunction_true {saw : Bool} {ts : List Truth} (h : conjunction saw ts = .true) :
    ∀ t ∈ ts, t = .true := by
  induction ts generalizing saw with
  | nil => simp
  | cons t rest ih =>
    cases t with
    | true => simpa using ih h
    | false => cases h
    | unknown =>
      have hsaw : ∀ us : List Truth, conjunction true us ≠ .true := by
        intro us
        induction us with
        | nil => simp [conjunction]
        | cons u us ih => cases u <;> simp [conjunction, ih]
      exact absurd h (hsaw rest)

theorem evaluateAll_eq_map (rec : Record) (es : List Expr) :
    evaluateAll rec es = es.map (evaluate rec) := by
  induction es with
  | nil => rfl
  | cons e rest ih => rw [evaluateAll, ih, List.map_cons]

theorem part_true {rec : Record} {parts : List Expr} (h : evaluate rec (and parts) = .true) :
    ∀ e ∈ parts, evaluate rec e = .true := by
  rw [evaluate, evaluateAll_eq_map] at h
  intro e he
  exact conjunction_true h _ (List.mem_map_of_mem he)

theorem compareValues_true {op : CmpOp} {x y : Option Value}
    (h : compareValues op x y = .true) :
    ∃ v w, x = some v ∧ y = some w ∧ v.isNull = false ∧ w.isNull = false ∧
      op.apply (v.cmp w) = true := by
  cases x with
  | none => cases h
  | some v => cases y with
    | none => cases h
    | some w =>
      rw [compareValues] at h
      split_ifs at h with hn
      rw [Bool.or_eq_true, not_or, Bool.not_eq_true, Bool.not_eq_true] at hn
      refine ⟨v, w, rfl, rfl, hn.1, hn.2, ?_⟩
      cases hop : op.apply (v.cmp w) with
      | true => rfl
      | false =>
        rw [hop] at h
        cases h

mutual

theorem equality_holds {rec : Record} {c : String × Value} : (e : Expr) →
    c ∈ equalityConstraints e → evaluate rec e = .true →
    ∃ v, rec.get c.1 = some v ∧ v.1.isNull = false ∧ v.1.cmp c.2 = .eq
  | compare op lhs rhs => fun hc h => by
    rw [evaluate] at h
    obtain ⟨v, w, hv, hw, hvn, hwn, hop⟩ := compareValues_true h
    unfold equalityConstraints at hc
    split at hc
    · rename_i heq
      injection heq with hop' hl hr
      subst hop' hl hr
      have hcmp : v.cmp w = .eq := by simpa [CmpOp.apply] using hop
      split at hc
      · obtain rfl := List.mem_singleton.mp hc
        obtain ⟨x, hx, rfl⟩ := Option.map_eq_some_iff.mp hv
        cases hw
        exact ⟨x, hx, hvn, hcmp⟩
      · obtain rfl := List.mem_singleton.mp hc
        obtain ⟨x, hx, rfl⟩ := Option.map_eq_some_iff.mp hw
        cases hv
        refine ⟨x, hx, hwn, ?_⟩
        rw [Value.cmp_swap, hcmp]
        rfl
      · cases hc
    · rename_i heq
      cases heq
    · cases hc
  | and parts => fun hc h => equalities_hold parts hc (part_true h)
  | literal _ | field _ | or _ | not _ | isNull _ | isNotNull _ | arith _ _ _ | within _ _
  | like _ _ => fun hc _ => by simp [equalityConstraints] at hc

theorem equalities_hold {rec : Record} {c : String × Value} : (es : List Expr) →
    c ∈ equalitiesOfAll es → (∀ e ∈ es, evaluate rec e = .true) →
    ∃ v, rec.get c.1 = some v ∧ v.1.isNull = false ∧ v.1.cmp c.2 = .eq
  | [] => fun hc _ => by cases hc
  | e :: rest => fun hc h => by
    rcases List.mem_append.mp hc with hc | hc
    · exact equality_holds e hc (h e List.mem_cons_self)
    · exact equalities_hold rest hc fun e' he => h e' (List.mem_cons_of_mem _ he)

end

/-- A walk is true of a record when the field lies within the bounds found. -/
def Within (rec : Record) (name : String) (w : RangeWalk) : Prop :=
  w.found → ∃ v, rec.get name = some v ∧ v.1.isNull = false ∧
    aboveLow v.1 w.lo = true ∧ belowHigh v.1 w.hi = true

/-- Nothing is bounded before a bound is found. -/
def Open (w : RangeWalk) : Prop := w.found = false → w.lo = .unbounded ∧ w.hi = .unbounded

theorem bound_within {rec : Record} {name : String} {w : RangeWalk} {op : CmpOp} {v : OrdValue}
    {c : Value} (hw : Within rec name w) (ho : Open w) (hv : rec.get name = some v)
    (hn : v.1.isNull = false) (hop : op.apply (v.1.cmp c) = true) :
    Within rec name (w.bound op c) ∧ Open (w.bound op c) := by
  have hin : aboveLow v.1 w.lo = true ∧ belowHigh v.1 w.hi = true := by
    cases hf : w.found with
    | false =>
      rw [(ho hf).1, (ho hf).2]
      exact ⟨rfl, rfl⟩
    | true =>
      obtain ⟨u, hu, -, hlo, hhi⟩ := hw hf
      rw [hv] at hu
      cases hu
      exact ⟨hlo, hhi⟩
  have hswap : c.cmp v.1 = (v.1.cmp c).swap := Value.cmp_swap c v.1
  cases op with
  | eq | ne => exact ⟨hw, ho⟩
  | gt | ge =>
    refine ⟨fun _ => ⟨v, hv, hn, ?_, hin.2⟩, nofun⟩
    simp only [RangeWalk.bound, aboveLow, hswap]
    cases hc : v.1.cmp c <;> simp_all [CmpOp.apply]
  | lt | le =>
    refine ⟨fun _ => ⟨v, hv, hn, hin.1, ?_⟩, nofun⟩
    simp only [RangeWalk.bound, belowHigh]
    cases hc : v.1.cmp c <;> simp_all [CmpOp.apply]

mutual

theorem rangeWalk_within {rec : Record} {name : String} {w : RangeWalk} : (e : Expr) →
    evaluate rec e = .true → Within rec name w → Open w →
    Within rec name (rangeWalk name w e) ∧ Open (rangeWalk name w e)
  | compare op lhs rhs => fun h hw ho => by
    rw [evaluate] at h
    obtain ⟨v, u, hv, hu, hvn, -, hop⟩ := compareValues_true h
    rw [rangeWalk]
    unfold RangeWalk.compared
    split
    · split_ifs with hf
      · subst hf
        obtain ⟨x, hx, rfl⟩ := Option.map_eq_some_iff.mp hv
        cases hu
        exact bound_within hw ho hx hvn hop
      · exact ⟨hw, ho⟩
    · exact ⟨hw, ho⟩
  | and parts => fun h hw ho => by
    rw [rangeWalk]
    exact rangeWalkAll_within parts (part_true h) hw ho
  | literal _ | field _ | or _ | not _ | isNull _ | isNotNull _ | arith _ _ _ | within _ _
  | like _ _ => fun _ hw ho => by
    simp only [rangeWalk]
    exact ⟨hw, ho⟩

theorem rangeWalkAll_within {rec : Record} {name : String} {w : RangeWalk} : (es : List Expr) →
    (∀ e ∈ es, evaluate rec e = .true) → Within rec name w → Open w →
    Within rec name (rangeWalkAll name w es) ∧ Open (rangeWalkAll name w es)
  | [] => fun _ hw ho => ⟨hw, ho⟩
  | e :: rest => fun h hw ho => by
    have hhead := rangeWalk_within e (h e List.mem_cons_self) hw ho
    exact rangeWalkAll_within rest (fun e' he => h e' (List.mem_cons_of_mem _ he)) hhead.1 hhead.2

end

theorem range_holds {rec : Record} {e : Expr} {name : String} {lo hi : Bound}
    (hr : rangeConstraint e name = some (lo, hi)) (h : evaluate rec e = .true) :
    ∃ v, rec.get name = some v ∧ v.1.isNull = false ∧
      aboveLow v.1 lo = true ∧ belowHigh v.1 hi = true := by
  have hstart : Within rec name ⟨.unbounded, .unbounded, false⟩ := nofun
  have hw := (rangeWalk_within e h hstart fun _ => ⟨rfl, rfl⟩).1
  simp only [rangeConstraint, Option.ite_none_right_eq_some, Option.some.injEq,
    Prod.mk.injEq] at hr
  obtain ⟨hf, rfl, rfl⟩ := hr
  exact hw hf

end Expr

end Adabt.Ir

/-! ## The fields a plan reads

A projection or an aggregate bounds what is read beneath it; a plan without one
hands whole records to the caller, and `requiredFields` is `none`. -/

namespace Adabt.Ir
open Adabt.Library

def Agg.fields (aggs : List Agg) : List String := aggs.filterMap (·.field)

namespace LogicalOp

/-- Fields read beneath a projection or aggregate. Reaching a leaf is success. -/
def requiredBelow (out : List String) : LogicalOp → List String
  | getById .. | getByIds .. | scan .. => out
  | filter input predicate => input.requiredBelow (predicate.referencedFields out)
  | sort input keys => input.requiredBelow (out ++ keys.map (·.field))
  | limit input _ => input.requiredBelow out
  | project input fields => input.requiredBelow (out ++ fields)
  | aggregate input groupBy aggs => input.requiredBelow (out ++ groupBy ++ Agg.fields aggs)
  | join left right _ _ => right.requiredBelow (left.requiredBelow out)

/-- `none` as soon as an operator needs the whole record. -/
def collectRequired (out : List String) : LogicalOp → Option (List String)
  | project input fields => some (out ++ fields ++ input.requiredBelow [])
  | aggregate input groupBy aggs =>
    some (out ++ groupBy ++ Agg.fields aggs ++ input.requiredBelow [])
  | limit input _ => input.collectRequired out
  | sort input keys => input.collectRequired (out ++ keys.map (·.field))
  | _ => none

def requiredFields (op : LogicalOp) : Option (List String) := (op.collectRequired []).map ascend

end LogicalOp

end Adabt.Ir
