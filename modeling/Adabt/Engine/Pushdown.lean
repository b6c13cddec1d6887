import Adabt.Exec.Planning

/-! # What a filter may be moved below

A plan without joins is a chain of operators over one leaf. A filter anywhere in
the chain may be applied to the rows of the leaf instead, when nothing below it
cuts rows off, makes new ones or drops a field that it reads. -/

set_option autoImplicit false

namespace Adabt.Engine
open Adabt.Core Adabt.Ir Adabt.Exec Adabt.Library

/-- The operator that reads a collection. -/
def leaf : LogicalOp → LogicalOp
  | .filter input _ | .project input _ | .sort input _ | .limit input _ | .aggregate input _ _ =>
    leaf input
  | op => op

/-- What the operators above the leaf make of its rows. -/
def above (rows : List Row) : LogicalOp → List Row
  | .filter input predicate => (above rows input).filter fun r => predicate.matches' r.2
  | .project input fields => projectRows fields (above rows input)
  | .sort input keys => sortRows keys (above rows input)
  | .limit input n => (above rows input).take n.toNat
  | .aggregate input groupBy aggs => aggregate (above rows input) groupBy aggs
  | _ => rows

/-- Whether a record passes every filter of a plan. -/
def passesFilters : LogicalOp → Record → Bool
  | .filter input predicate, rec => passesFilters input rec && predicate.matches' rec
  | .project input _, rec | .sort input _, rec | .limit input _, rec | .aggregate input _ _, rec =>
    passesFilters input rec
  | _, _ => true

theorem answer_over (src : QuerySource) {op : LogicalOp} (hj : op.containsJoin = false) :
    answer src op = (fun rows => above rows op) <$> answer src (leaf op) := by
  have hid : ∀ x : Result (List Row), x = (fun rows => rows) <$> x := fun x => (id_map x).symm
  induction op with
  | getById _ _ | getByIds _ _ | scan _ => exact hid _
  | filter _ _ ih | project _ _ ih | sort _ _ ih | limit _ _ ih | aggregate _ _ _ ih =>
    rw [answer, ih hj, leaf, ← comp_map]
    rfl
  | join _ _ _ _ => cases hj

/-! ## Moving a filter down -/

/-- Values under a field compare as points of a line, among some rows. -/
def FieldLinked (rows : List Row) (field : String) : Prop :=
  ∀ a ∈ rows, ∀ b ∈ rows, ∀ c ∈ rows,
    Linked (compareField (a.2.get field) (b.2.get field)) (compareField (b.2.get field) (c.2.get field))
      (compareField (a.2.get field) (c.2.get field))

/-- A filter that reads the given fields may be moved below the operators of a plan. -/
def MovesBelow (rows : List Row) (fields : List String) : LogicalOp → Prop
  | .filter input _ => MovesBelow rows fields input
  | .project input names => (∀ f ∈ fields, f ∈ names) ∧ MovesBelow rows fields input
  | .sort input keys => (∀ k ∈ keys, FieldLinked rows k.field) ∧ MovesBelow rows fields input
  | .limit .. | .aggregate .. | .join .. => False
  | _ => True

/-- Every filter of a plan may be moved below all that it stands on. -/
def FiltersMove (rows : List Row) : LogicalOp → Prop
  | .filter input predicate =>
    MovesBelow rows (predicate.referencedFields []) input ∧ FiltersMove rows input
  | .project input _ | .sort input _ | .limit input _ | .aggregate input _ _ => FiltersMove rows input
  | _ => True

theorem FieldLinked.subset {rows more : List Row} {field : String} (h : FieldLinked more field)
    (hs : ∀ r ∈ rows, r ∈ more) : FieldLinked rows field :=
  fun a ha b hb c hc => h a (hs a ha) b (hs b hb) c (hs c hc)

theorem FieldLinked.project {rows : List Row} {field : String} (h : FieldLinked rows field)
    (names : List String) : FieldLinked (projectRows names rows) field := by
  intro a ha b hb c hc
  obtain ⟨a, har, rfl⟩ := List.mem_map.mp ha
  obtain ⟨b, hbr, rfl⟩ := List.mem_map.mp hb
  obtain ⟨c, hcr, rfl⟩ := List.mem_map.mp hc
  simp only [Record.get_project]
  split_ifs
  · exact h a har b hbr c hcr
  · exact fun _ _ => rfl

theorem directed_swap (descending : Bool) (o : Ordering) :
    directed descending o.swap = (directed descending o).swap := by
  cases descending <;> rfl

theorem compareRows_swap (a b : Record) (keys : List SortKey) :
    compareRows a b keys = (compareRows b a keys).swap := by
  induction keys with
  | nil => rfl
  | cons k keys ih =>
    rw [compareRows, compareRows, Ordering.swap_then, ← ih, compareField_swap, directed_swap]

theorem rowOrder_swap (keys : List SortKey) (a b : Row) :
    rowOrder keys a b = (rowOrder keys b a).swap := by
  rw [rowOrder, rowOrder, Ordering.swap_then, ← compareRows_swap,
    (Std.OrientedCmp.eq_swap : compare a.1 b.1 = _)]

theorem compareRows_linked {rows : List Row} {keys : List SortKey}
    (h : ∀ k ∈ keys, FieldLinked rows k.field) {a b c : Row} (ha : a ∈ rows) (hb : b ∈ rows)
    (hc : c ∈ rows) :
    Linked (compareRows a.2 b.2 keys) (compareRows b.2 c.2 keys) (compareRows a.2 c.2 keys) := by
  induction keys with
  | nil => exact fun _ _ => rfl
  | cons k keys ih =>
    have hk := h k List.mem_cons_self
    apply Linked.lexicographic
    · cases k.descending with
      | false => exact hk a ha b hb c hc
      | true =>
        have hdown := (hk c hc b hb a ha).comm
        simpa only [directed, if_true, ← compareField_swap] using hdown
    · exact ih fun k hk => h k (List.mem_cons_of_mem _ hk)

theorem sortRows_filter {rows : List Row} {keys : List SortKey}
    (h : ∀ k ∈ keys, FieldLinked rows k.field) (p : Row → Bool) :
    (sortRows keys rows).filter p = sortRows keys (rows.filter p) := by
  apply sortBy_filter
  · exact rowOrder_swap keys
  · intro a ha b hb c hc
    exact Linked.lexicographic (compareRows_linked h ha hb hc) (linked_compare a.1 b.1 c.1)

theorem matches_project {predicate : Expr} {names : List String}
    (h : ∀ f ∈ predicate.referencedFields [], f ∈ names) (rec : Record) :
    predicate.matches' (rec.project names) = predicate.matches' rec := by
  apply Expr.matches_agree
  intro f hf
  rw [Record.get_project, if_pos (h f hf)]

/-- What a chain hands up is linked when the rows of its leaf are, as long as the
chain makes no new rows. -/
theorem fieldLinked_over {rows more : List Row} {fields : List String} {op : LogicalOp}
    (h : MovesBelow rows fields op) (hs : ∀ r ∈ more, r ∈ rows) {field : String}
    (hl : FieldLinked rows field) : FieldLinked (above more op) field := by
  induction op with
  | getById _ _ | getByIds _ _ | scan _ => exact hl.subset hs
  | filter input predicate ih => exact (ih h).subset fun r hr => List.mem_of_mem_filter hr
  | project input names ih => exact (ih h.2).project names
  | sort input keys ih => exact (ih h.2).subset fun r hr => (mem_sortBy _).mp hr
  | limit _ _ _ | aggregate _ _ _ _ | join _ _ _ _ => exact h.elim

theorem over_filter {rows more : List Row} {predicate : Expr} {op : LogicalOp}
    (h : MovesBelow rows (predicate.referencedFields []) op) (hs : ∀ r ∈ more, r ∈ rows) :
    above (more.filter fun r => predicate.matches' r.2) op =
      (above more op).filter fun r => predicate.matches' r.2 := by
  induction op with
  | getById _ _ | getByIds _ _ | scan _ => rfl
  | filter input q ih =>
    rw [above, ih h, above, List.filter_filter, List.filter_filter]
    simp only [Bool.and_comm]
  | project input names ih =>
    rw [above, ih h.2, above, projectRows, projectRows, List.filter_map]
    refine congrArg _ (List.filter_congr fun r _ => ?_)
    exact (matches_project h.1 r.2).symm
  | sort input keys ih =>
    rw [above, ih h.2, above, sortRows_filter]
    exact fun k hk => fieldLinked_over h.2 hs (h.1 k hk)
  | limit _ _ _ | aggregate _ _ _ _ | join _ _ _ _ => exact h.elim

/-- Where every filter may be moved, the rows of the leaf that pass them all do as
well as all its rows. -/
theorem over_passesFilters {rows : List Row} {op : LogicalOp} (h : FiltersMove rows op) :
    above (rows.filter fun r => passesFilters op r.2) op = above rows op := by
  induction op with
  | getById _ _ | getByIds _ _ | scan _ | join _ _ _ _ => exact List.filter_eq_self.mpr fun _ _ => rfl
  | filter input predicate ih =>
    have hsplit : (rows.filter fun r => passesFilters (.filter input predicate) r.2) =
        (rows.filter fun r => passesFilters input r.2).filter fun r => predicate.matches' r.2 := by
      rw [List.filter_filter]
      simp only [passesFilters, Bool.and_comm]
    rw [hsplit, above, over_filter h.1 fun r hr => List.mem_of_mem_filter hr, ih h.2,
      List.filter_filter, above]
    simp only [Bool.and_self]
  | project _ _ ih | sort _ _ ih | limit _ _ ih | aggregate _ _ _ ih =>
    simp only [above, passesFilters, ih h]

end Adabt.Engine
