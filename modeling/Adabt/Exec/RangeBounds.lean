import Adabt.Indexing.Multimap
import Adabt.Ir.Reads
import Mathlib.Data.List.Induction

/-! # Bounds of a range

The conjuncts that bound a field are walked in order, and on each side the last
one stands. A tree map walks between two bounds, and refuses to where they cross. -/

set_option autoImplicit false

namespace Adabt.Ir
open Adabt.Core Adabt.Indexing

def CmpOp.isLower (op : CmpOp) : Bool := op = .gt ∨ op = .ge

def CmpOp.isUpper (op : CmpOp) : Bool := op = .lt ∨ op = .le

namespace Expr

/-- A comparison of the field with a literal. -/
def boundOn (name : String) (op : CmpOp) : Expr → Expr → List (CmpOp × Value)
  | .field f, .literal v => if f = name then [(op, v)] else []
  | _, _ => []

mutual

/-- The comparisons of a field with a literal among the conjuncts, as they appear. -/
def boundsOn (name : String) : Expr → List (CmpOp × Value)
  | compare op lhs rhs => boundOn name op lhs rhs
  | and parts => boundsOnAll name parts
  | _ => []

def boundsOnAll (name : String) : List Expr → List (CmpOp × Value)
  | [] => []
  | e :: rest => boundsOn name e ++ boundsOnAll name rest

end

def lastLower (e : Expr) (name : String) : Option (CmpOp × Value) :=
  ((e.boundsOn name).filter (·.1.isLower)).getLast?

def lastUpper (e : Expr) (name : String) : Option (CmpOp × Value) :=
  ((e.boundsOn name).filter (·.1.isUpper)).getLast?

/-- The last lower bound is not above the last upper one, nor equal to it when both are strict. -/
def BoundsMeet (e : Expr) (name : String) : Prop :=
  ∀ a ∈ e.lastLower name, ∀ b ∈ e.lastUpper name,
    a.2.cmp b.2 ≠ .gt ∧ ¬(a.1 = .gt ∧ b.1 = .lt ∧ a.2.cmp b.2 = .eq)

/-! ## The walk keeps the last bound of each side -/

theorem compared_eq (w : RangeWalk) (name : String) (op : CmpOp) (lhs rhs : Expr) :
    w.compared name op lhs rhs =
      (boundOn name op lhs rhs).foldl (fun w b => w.bound b.1 b.2) w := by
  unfold RangeWalk.compared
  split
  · rw [boundOn]
    split_ifs <;> rfl
  next hne =>
    unfold boundOn
    split
    · exact (hne _ _ rfl rfl).elim
    · rfl

mutual

theorem rangeWalk_eq (name : String) (w : RangeWalk) : (e : Expr) →
    rangeWalk name w e = (boundsOn name e).foldl (fun w b => w.bound b.1 b.2) w
  | compare op lhs rhs => by rw [rangeWalk, boundsOn, compared_eq]
  | and parts => by rw [rangeWalk, boundsOn, rangeWalkAll_eq name w parts]
  | literal _ | field _ | or _ | not _ | isNull _ | isNotNull _ | arith _ _ _ | within _ _
  | like _ _ => by simp only [rangeWalk, boundsOn, List.foldl_nil]

theorem rangeWalkAll_eq (name : String) (w : RangeWalk) : (es : List Expr) →
    rangeWalkAll name w es = (boundsOnAll name es).foldl (fun w b => w.bound b.1 b.2) w
  | [] => rfl
  | e :: rest => by
    rw [rangeWalkAll, boundsOnAll, List.foldl_append, rangeWalk_eq name w e,
      rangeWalkAll_eq name _ rest]

end

def lowBound (b : CmpOp × Value) : Bound := if b.1 = .gt then .excluded b.2 else .included b.2

def highBound (b : CmpOp × Value) : Bound := if b.1 = .lt then .excluded b.2 else .included b.2

theorem foldl_bound (bs : List (CmpOp × Value)) :
    bs.foldl (fun (w : RangeWalk) b => w.bound b.1 b.2) ⟨.unbounded, .unbounded, false⟩ =
      ⟨((bs.filter (·.1.isLower)).getLast?.map lowBound).getD .unbounded,
        ((bs.filter (·.1.isUpper)).getLast?.map highBound).getD .unbounded,
        bs.any fun b => b.1.isLower || b.1.isUpper⟩ := by
  induction bs using List.reverseRecOn with
  | nil => rfl
  | append_singleton bs b ih =>
    obtain ⟨op, v⟩ := b
    rw [List.foldl_append, ih, List.filter_append, List.filter_append, List.any_append]
    cases op <;> simp [RangeWalk.bound, CmpOp.isLower, CmpOp.isUpper, lowBound, highBound]

theorem rangeConstraint_eq {e : Expr} {name : String} {lo hi : Bound}
    (h : e.rangeConstraint name = some (lo, hi)) :
    lo = ((e.lastLower name).map lowBound).getD .unbounded ∧
      hi = ((e.lastUpper name).map highBound).getD .unbounded := by
  simp only [rangeConstraint, rangeWalk_eq, foldl_bound, Option.ite_none_right_eq_some,
    Option.some.injEq, Prod.mk.injEq] at h
  exact ⟨h.2.1.symm, h.2.2.symm⟩

/-- A predicate that bounds the field gives bounds. -/
theorem rangeConstraint_isSome {e : Expr} {name : String} {a : CmpOp × Value}
    (h : a ∈ e.lastLower name) : (e.rangeConstraint name).isSome := by
  have hmem := List.mem_filter.mp (List.mem_of_getLast? h)
  have hany : (e.boundsOn name).any (fun b => b.1.isLower || b.1.isUpper) = true :=
    List.any_eq_true.mpr ⟨a, hmem.1, by rw [hmem.2, Bool.true_or]⟩
  simp only [rangeConstraint, rangeWalk_eq, foldl_bound, hany, if_true, Option.isSome_some]

/-- A tree map refuses a pair of bounds exactly where they cross. -/
theorem crossing_none_iff (a b : CmpOp × Value) : crossing (lowBound a) (highBound b) = none ↔
    a.2.cmp b.2 ≠ .gt ∧ ¬(a.1 = .gt ∧ b.1 = .lt ∧ a.2.cmp b.2 = .eq) := by
  unfold lowBound highBound
  by_cases ha : a.1 = .gt
  · by_cases hb : b.1 = .lt
    · rw [if_pos ha, if_pos hb, crossing]
      cases hc : a.2.cmp b.2 <;> simp [ha, hb]
    · rw [if_pos ha, if_neg hb, crossing]
      simp [hb]
  · by_cases hb : b.1 = .lt
    · rw [if_neg ha, if_pos hb, crossing]
      simp [ha]
    · rw [if_neg ha, if_neg hb, crossing]
      simp [ha]

theorem boundsMeet_iff {e : Expr} {name : String} {lo hi : Bound}
    (h : e.rangeConstraint name = some (lo, hi)) :
    e.BoundsMeet name ↔ crossing lo hi = none := by
  obtain ⟨hlo, hhi⟩ := rangeConstraint_eq h
  rw [hlo, hhi, BoundsMeet]
  cases ha : e.lastLower name with
  | none =>
    rw [Option.map_none, Option.getD_none, crossing]
    · exact ⟨fun _ => rfl, fun _ a ha => by cases ha⟩
    all_goals intros; contradiction
  | some a =>
    cases hb : e.lastUpper name with
    | none =>
      rw [Option.map_none, Option.getD_none, crossing]
      · exact ⟨fun _ => rfl, fun _ a _ b hb => by cases hb⟩
      all_goals intros; contradiction
    | some b =>
      rw [Option.map_some, Option.map_some, Option.getD_some, Option.getD_some, crossing_none_iff]
      exact ⟨fun hmeet => hmeet a rfl b rfl, fun hmeet c hc d hd =>
        Option.some.inj hc ▸ Option.some.inj hd ▸ hmeet⟩

end Expr

end Adabt.Ir

namespace Adabt.Indexing
open Adabt.Core Adabt.Ir Adabt.Library

/-- What a tree index can hold: keys ascending, and ids ascending under each. -/
structure Index.TreeContent (i : Index) : Prop where
  kind : i.kind = .btree
  keys : i.entries.Pairwise fun a b => a.1.cmp b.1 = .lt
  ids : ∀ e ∈ i.entries, e.2.Pairwise (· < ·)

/-- An index that follows its records holds such a content. -/
theorem Index.InStep.treeContent {K : Value → Prop} {i : Index} {records : OrdMap RecordId Record}
    (h : i.InStep K records) (hkind : i.kind = .btree) : i.TreeContent where
  kind := hkind
  keys := h.filed.keys.imp fun hap => by rwa [Apart, if_pos hkind] at hap
  ids := h.filed.ids

/-- The ids of the pairs between the bounds, by key and then by id, each pair once. -/
def Index.Walked (i : Index) (lo hi : Bound) (ids : List RecordId) : Prop :=
  ∃ pairs : List (Value × RecordId), ids = pairs.map (·.2) ∧
    pairs.Pairwise (fun p q => p.1.cmp q.1 = .lt ∨ p.1 = q.1 ∧ p.2 < q.2) ∧
    ∀ p, p ∈ pairs ↔ (∃ e ∈ i.entries, e.1 = p.1 ∧ p.2 ∈ e.2) ∧
      aboveLow p.1 lo = true ∧ belowHigh p.1 hi = true

theorem Index.TreeContent.walked {i : Index} (h : i.TreeContent) (lo hi : Bound) :
    i.Walked lo hi (i.rangeIds lo hi) := by
  refine ⟨filings (i.entries.filter fun e => aboveLow e.1 lo && belowHigh e.1 hi), ?_, ?_, ?_⟩
  · rw [filings, List.map_flatMap, rangeIds]
    simp only [List.map_map, Function.comp_def, List.map_id']
  · refine List.pairwise_flatMap.mpr ⟨fun e he => ?_, (h.keys.filter _).imp fun {d e} hlt => ?_⟩
    · exact List.pairwise_map.mpr
        ((h.ids e (List.mem_of_mem_filter he)).imp fun hlt => .inr ⟨rfl, hlt⟩)
    · intro p hp q hq
      obtain ⟨x, -, rfl⟩ := List.mem_map.mp hp
      obtain ⟨y, -, rfl⟩ := List.mem_map.mp hq
      exact .inl hlt
  · intro p
    rw [filings, List.mem_flatMap]
    constructor
    · rintro ⟨e, he, hp⟩
      obtain ⟨id, hid, rfl⟩ := List.mem_map.mp hp
      obtain ⟨hmem, hin⟩ := List.mem_filter.mp he
      rw [Bool.and_eq_true] at hin
      exact ⟨⟨e, hmem, rfl, hid⟩, hin⟩
    · rintro ⟨⟨e, he, hkey, hid⟩, hlo, hhi⟩
      refine ⟨e, List.mem_filter.mpr ⟨he, ?_⟩, List.mem_map.mpr ⟨p.2, hid, by rw [hkey]⟩⟩
      rw [hkey, hlo, hhi]
      rfl

/-- Where no id stands under two keys a walk gives none twice. -/
theorem Index.Walked.nodup {i : Index} {lo hi : Bound} {ids : List RecordId}
    (h : i.Walked lo hi ids)
    (hone : ∀ d ∈ i.entries, ∀ e ∈ i.entries, ∀ id ∈ d.2, id ∈ e.2 → d = e) : ids.Nodup := by
  obtain ⟨pairs, rfl, hasc, hmem⟩ := h
  refine List.pairwise_map.mpr (hasc.imp_of_mem fun {p q} hp hq hlt heq => ?_)
  obtain ⟨⟨d, hd, hdp, hid⟩, -⟩ := (hmem p).mp hp
  obtain ⟨⟨e, he, heq', hid'⟩, -⟩ := (hmem q).mp hq
  have hde := hone d hd e he p.2 hid (heq ▸ hid')
  rw [← hdp, ← heq', hde, Value.cmp_self] at hlt
  rcases hlt with hlt | ⟨-, hlt⟩
  · cases hlt
  · exact absurd heq hlt.ne

end Adabt.Indexing

namespace Adabt.Exec
open Adabt.Core Adabt.Ir Adabt.Indexing

/-- The bounds a predicate gives for a field hold every record it keeps, and every tree index
answers them without a panic, each id between them once. -/
def RangeAnswered (predicate : Expr) (field : String) : Prop :=
  ∀ lo hi, predicate.rangeConstraint field = some (lo, hi) →
    (∀ rec, predicate.evaluate rec = .true → ∀ v, rec.get field = some v → v.1.isNull = false →
      aboveLow v.1 lo = true ∧ belowHigh v.1 hi = true) ∧
    ∀ i : Index, i.TreeContent → ∃ ids, i.range lo hi = .ok (some ids) ∧ i.Walked lo hi ids ∧
      ((∀ d ∈ i.entries, ∀ e ∈ i.entries, ∀ id ∈ d.2, id ∈ e.2 → d = e) → ids.Nodup)

end Adabt.Exec
