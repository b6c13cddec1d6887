import Adabt.Core.IntegerSums
import Adabt.Exec.Rows
import Adabt.Library.Buckets

/-! # Aggregates, group by group

An aggregate is one row for each group of the records. What a group's
accumulators hold at the end is said in terms of its records. -/

set_option autoImplicit false

namespace Adabt.Exec
open Adabt.Core Adabt.Ir Adabt.Library

theorem upsertGroup_eq (key : List OrdValue) (fresh : List AggAcc)
    (f : List AggAcc → List AggAcc) (g : Groups) :
    upsertGroup key fresh f g = upsert cmpKeys key fresh f g := by
  induction g with
  | nil => rfl
  | cons a g ih =>
    unfold upsertGroup upsert
    cases cmpKeys key a.1 with
    | eq => rfl
    | lt => rfl
    | gt => exact congrArg (a :: ·) ih

/-- A walk with an accumulator for each output is a walk for each output. -/
theorem foldl_zipWith {α β γ : Type} (step : α → β → γ → β) (init : α → β) (as : List α)
    (cs : List γ) :
    cs.foldl (fun accs c => List.zipWith (fun a acc => step a acc c) as accs) (as.map init) =
      as.map fun a => cs.foldl (step a) (init a) := by
  induction cs generalizing init with
  | nil => rfl
  | cons c cs ih =>
    have hstep : List.zipWith (fun a acc => step a acc c) as (as.map init) =
        as.map fun a => step a (init a) c := by
      rw [List.zipWith_map_right, List.zipWith_self]
    rw [List.foldl_cons, hstep, ih]
    rfl

/-- What a group of records leaves in the accumulator of an output. -/
def rowAcc (a : Agg) (members : List Record) : AggAcc :=
  members.foldl (fun acc rec => acc.take a rec) .default

theorem aggregateGroups_eq (rows : List Row) (groupBy : List String) (aggs : List Agg) :
    aggregateGroups rows groupBy aggs =
      (buckets cmpKeys (groupKey groupBy) (rows.map Prod.snd)).map fun b =>
        (b.1, aggs.map fun a => rowAcc a b.2) := by
  have hrows : aggregateGroups rows groupBy aggs =
      (rows.map Prod.snd).foldl (fun g rec => upsert cmpKeys (groupKey groupBy rec)
        (freshAccs aggs) (fun accs => List.zipWith (fun a acc => acc.take a rec) aggs accs) g) [] := by
    rw [aggregateGroups, List.foldl_map]
    simp only [upsertGroup_eq]
  rw [hrows, foldl_upsert cmpKeys (groupKey groupBy)
    (fun accs rec => List.zipWith (fun a acc => AggAcc.take acc a rec) aggs accs)]
  simp only [freshAccs, foldl_zipWith (fun a acc rec => AggAcc.take acc a rec)]
  rfl

/-! ## What a group reads -/

/-- The values of an output's field that are not null. -/
def values (a : Agg) (members : List Record) : List OrdValue :=
  (members.filterMap fun rec => a.field.bind rec.get).filter fun v => !v.1.isNull

def numbers (a : Agg) (members : List Record) : List F64 :=
  (values a members).filterMap fun v => asF64 v.1

theorem values_append (a : Agg) (xs ys : List Record) :
    values a (xs ++ ys) = values a xs ++ values a ys := by
  simp [values]

theorem numbers_append (a : Agg) (xs ys : List Record) :
    numbers a (xs ++ ys) = numbers a xs ++ numbers a ys := by
  simp [numbers, values_append]

theorem values_perm (a : Agg) {xs ys : List Record} (h : xs.Perm ys) :
    (values a xs).Perm (values a ys) := (h.filterMap _).filter _

theorem numbers_perm (a : Agg) {xs ys : List Record} (h : xs.Perm ys) :
    (numbers a xs).Perm (numbers a ys) := (values_perm a h).filterMap _

theorem values_sublist (a : Agg) {xs ys : List Record} (h : xs.Sublist ys) :
    (values a xs).Sublist (values a ys) := (h.filterMap _).filter _

theorem numbers_sublist (a : Agg) {xs ys : List Record} (h : xs.Sublist ys) :
    (numbers a xs).Sublist (numbers a ys) := (values_sublist a h).filterMap _

theorem values_single_none {a : Agg} {rec : Record} (h : a.field.bind rec.get = none) :
    values a [rec] = [] := by
  simp [values, h]

theorem values_single_null {a : Agg} {rec : Record} {v : OrdValue}
    (h : a.field.bind rec.get = some v) (hv : v.1.isNull = true) : values a [rec] = [] := by
  simp [values, h, hv]

theorem values_single {a : Agg} {rec : Record} {v : OrdValue}
    (h : a.field.bind rec.get = some v) (hv : v.1.isNull = false) : values a [rec] = [v] := by
  simp [values, h, hv]

/-- A mean, or null of nothing. -/
def mean (sum : F64) (count : UInt64) : OrdValue :=
  if 0 < count then ⟨.f64 (sum.div (F64.ofInt count.toNat)), trivial⟩ else nullValue

/-- How many rows, or values, a count counts. -/
def counted (a : Agg) (members : List Record) : ℕ :=
  if a.field = none then members.length else (values a members).length

theorem rowAcc_append (a : Agg) (members : List Record) (rec : Record) :
    rowAcc a (members ++ [rec]) = (rowAcc a members).take a rec := by
  rw [rowAcc, List.foldl_append]
  rfl

theorem ofNat_succ (n : ℕ) : UInt64.ofNat (n + 1) = UInt64.ofNat n + 1 := by
  rw [UInt64.ofNat_add]
  rfl

theorem rowAcc_count {a : Agg} (h : a.kind = .count) (members : List Record) :
    (rowAcc a members).count = UInt64.ofNat (counted a members) := by
  induction members using List.reverseRecOn with
  | nil =>
    unfold counted
    split_ifs <;> rfl
  | append_singleton members rec ih =>
    rw [rowAcc_append, AggAcc.take, h]
    cases hf : a.field with
    | none =>
      simp only [AggAcc.counted, ih, counted, hf, if_true, List.length_append, List.length_singleton,
        ofNat_succ]
    | some f =>
      have hn : ¬a.field = none := by simp [hf]
      have hbind : a.field.bind rec.get = rec.get f := by rw [hf, Option.bind_some]
      rw [counted, if_neg hn] at ih ⊢
      rw [values_append, List.length_append]
      dsimp only
      cases hv : rec.get f with
      | none =>
        rw [values_single_none (hbind.trans hv)]
        simpa using ih
      | some v =>
        cases hnull : v.1.isNull with
        | true =>
          rw [values_single_null (hbind.trans hv) hnull]
          simpa [hnull] using ih
        | false =>
          rw [values_single (hbind.trans hv) hnull, List.length_singleton, ofNat_succ, ← ih]
          simp [hnull, AggAcc.counted]

theorem asF64_isNull {v : Value} (h : v.isNull = true) : asF64 v = none := by
  cases v <;> first | rfl | cases h

/-- The number a record adds to a sum, if any. -/
theorem numbers_single (a : Agg) (rec : Record) :
    numbers a [rec] = ((a.field.bind rec.get).bind fun v => asF64 v.1).toList := by
  unfold numbers
  cases hv : a.field.bind rec.get with
  | none => simp [values_single_none hv]
  | some v =>
    cases hnull : v.1.isNull with
    | true => simp [values_single_null hv hnull, asF64_isNull hnull]
    | false =>
      rw [values_single hv hnull, Option.bind_some]
      cases hn : asF64 v.1 with
      | none => simp [hn]
      | some n => simp [hn]

theorem sumOf_append (l : List F64) (n : F64) :
    F64.sumOf (l ++ [n]) = (F64.sumOf l).add n := by
  rw [F64.sumOf, List.foldl_append]
  rfl

theorem rowAcc_numbers {a : Agg} (h : a.kind = .sum ∨ a.kind = .avg) (members : List Record) :
    rowAcc a members = ⟨UInt64.ofNat (numbers a members).length, F64.sumOf (numbers a members),
      decide (numbers a members ≠ []), none, none⟩ := by
  induction members using List.reverseRecOn with
  | nil => rfl
  | append_singleton members rec ih =>
    rw [rowAcc_append, ih, numbers_append, numbers_single]
    cases hn : (a.field.bind rec.get).bind fun v => asF64 v.1 with
    | none => rcases h with h | h <;> simp [AggAcc.take, h, hn]
    | some n =>
      rw [Option.toList_some, sumOf_append, List.length_append, List.length_singleton, ofNat_succ]
      rcases h with h | h <;>
        simp [AggAcc.take, h, hn, AggAcc.summed, AggAcc.counted, AggAcc.seen]

/-! ## Records and rows of groups -/

/-- The record of a group: its key, and each output with its result. -/
def resultRecord (groupBy : List String) (aggs : List Agg) (key : List OrdValue)
    (result : Agg → OrdValue) : Record :=
  aggs.foldl (fun rec a => rec.set a.output (result a))
    ((groupBy.zip key).foldl (fun rec p => rec.set p.1 p.2) ∅)

theorem groupRecord_eq (groupBy : List String) (aggs : List Agg) (key : List OrdValue)
    (acc : Agg → AggAcc) :
    groupRecord groupBy aggs (key, aggs.map acc) =
      resultRecord groupBy aggs key fun a => (acc a).result a.kind := by
  simp only [groupRecord, resultRecord]
  generalize (groupBy.zip key).foldl (fun (rec : Record) p => rec.set p.1 p.2) ∅ = out
  induction aggs generalizing out with
  | nil => rfl
  | cons a aggs ih => exact ih _

/-- No later output goes by the same name. -/
def Shown (aggs : List Agg) (a : Agg) : Prop :=
  ∃ before after, aggs = before ++ a :: after ∧ ∀ b ∈ after, b.output ≠ a.output

theorem Shown.mem {aggs : List Agg} {a : Agg} (h : Shown aggs a) : a ∈ aggs := by
  obtain ⟨before, after, rfl, -⟩ := h
  exact List.mem_append_right _ List.mem_cons_self

theorem foldl_set_of_not_mem {aggs : List Agg} {name : String} (h : ∀ a ∈ aggs, a.output ≠ name)
    (result : Agg → OrdValue) (out : Record) :
    (aggs.foldl (fun rec a => rec.set a.output (result a)) out).get name = out.get name := by
  induction aggs generalizing out with
  | nil => rfl
  | cons a aggs ih =>
    rw [List.foldl_cons, ih fun b hb => h b (List.mem_cons_of_mem _ hb)]
    exact OrdMap.get_insert_ne out _ (h a List.mem_cons_self).symm

theorem get_shown {aggs : List Agg} {a : Agg} (h : Shown aggs a) (groupBy : List String)
    (key : List OrdValue) (result : Agg → OrdValue) :
    (resultRecord groupBy aggs key result).get a.output = some (result a) := by
  obtain ⟨before, after, rfl, hafter⟩ := h
  rw [resultRecord, List.foldl_append, List.foldl_cons, foldl_set_of_not_mem hafter]
  exact OrdMap.get_insert_self ..

/-- A name some output goes by is the name of one that is shown. -/
theorem exists_shown {aggs : List Agg} {name : String} (h : ∃ a ∈ aggs, a.output = name) :
    ∃ a, Shown aggs a ∧ a.output = name := by
  induction aggs with
  | nil =>
    obtain ⟨a, ha, -⟩ := h
    cases ha
  | cons b aggs ih =>
    by_cases hrest : ∃ a ∈ aggs, a.output = name
    · obtain ⟨a, ⟨before, after, he, hafter⟩, hname⟩ := ih hrest
      exact ⟨a, ⟨b :: before, after, by rw [he]; rfl, hafter⟩, hname⟩
    · obtain ⟨a, ha, hname⟩ := h
      rcases List.mem_cons.mp ha with rfl | ha
      · refine ⟨a, ⟨[], aggs, rfl, fun c hc he => hrest ⟨c, hc, he.trans hname⟩⟩, hname⟩
      · exact absurd ⟨a, ha, hname⟩ hrest

theorem cmpList_eq {xs ys : List Value} (h : Value.cmpList xs ys = .eq) :
    List.Forall₂ (fun x y => x.Eqv y) xs ys := by
  induction xs generalizing ys with
  | nil =>
    cases ys with
    | nil => exact .nil
    | cons y ys => cases h
  | cons x xs ih =>
    cases ys with
    | nil => cases h
    | cons y ys =>
      obtain ⟨hxy, hrest⟩ := Ordering.then_eq_eq.mp h
      exact .cons hxy (ih hrest)

theorem cmpKeys_self (key : List OrdValue) : cmpKeys key key = .eq := Value.cmpList_self _

theorem keyed_alike {groupBy : List String} {k k' : List OrdValue}
    (h : List.Forall₂ (fun v w : OrdValue => v.1.Eqv w.1) k k') {out out' : Record}
    {name : String}
    (hout : Option.Rel (fun v w : OrdValue => v.1.Eqv w.1) (out.get name) (out'.get name)) :
    Option.Rel (fun v w : OrdValue => v.1.Eqv w.1)
      (((groupBy.zip k).foldl (fun (rec : Record) p => rec.set p.1 p.2) out).get name)
      (((groupBy.zip k').foldl (fun (rec : Record) p => rec.set p.1 p.2) out').get name) := by
  induction h generalizing groupBy out out' with
  | nil => simpa using hout
  | cons hvw _ ih =>
    cases groupBy with
    | nil => exact hout
    | cons g groupBy =>
      apply ih
      simp only [Record.set, OrdMap.get_insert]
      split_ifs
      · exact .some hvw
      · exact hout

/-- Records of groups whose keys tie are equal when the outputs shown are. -/
theorem resultRecord_eqv {groupBy : List String} {aggs : List Agg} {key key' : List OrdValue}
    (hkey : cmpKeys key key' = .eq) (result result' : Agg → OrdValue) :
    (resultRecord groupBy aggs key result).Eqv (resultRecord groupBy aggs key' result') ↔
      ∀ a, Shown aggs a → (result a).1.Eqv (result' a).1 := by
  rw [Record.eqv_iff]
  constructor
  · intro h a ha
    have hrel := h a.output
    rw [get_shown ha, get_shown ha] at hrel
    cases hrel
    assumption
  · intro h name
    by_cases hname : ∃ a ∈ aggs, a.output = name
    · obtain ⟨a, ha, rfl⟩ := exists_shown hname
      rw [get_shown ha, get_shown ha]
      exact .some (h a ha)
    · have hnot : ∀ a ∈ aggs, a.output ≠ name := fun a ha he => hname ⟨a, ha, he⟩
      rw [resultRecord, resultRecord, foldl_set_of_not_mem hnot, foldl_set_of_not_mem hnot]
      have hkeys := cmpList_eq hkey
      rw [List.forall₂_map_left_iff, List.forall₂_map_right_iff] at hkeys
      exact keyed_alike hkeys .none

/-- Rows with the same ids, in the same order, with equal records. -/
def SameRows : List Row → List Row → Prop :=
  List.Forall₂ fun r s => r.1 = s.1 ∧ r.2.Eqv s.2

theorem sameRows_zipIdx {xs ys : List Record} (n : ℕ) :
    SameRows (xs.zipIdx n |>.map fun p => (Fin.ofNat _ p.2, p.1))
        (ys.zipIdx n |>.map fun p => (Fin.ofNat _ p.2, p.1)) ↔
      List.Forall₂ Record.Eqv xs ys := by
  induction xs generalizing ys n with
  | nil =>
    cases ys with
    | nil => exact ⟨fun _ => .nil, fun _ => .nil⟩
    | cons y ys => exact ⟨nofun, nofun⟩
  | cons x xs ih =>
    cases ys with
    | nil => exact ⟨nofun, nofun⟩
    | cons y ys =>
      rw [List.zipIdx_cons, List.zipIdx_cons, List.map_cons, List.map_cons, SameRows,
        List.forall₂_cons, List.forall₂_cons]
      exact and_congr (and_iff_right rfl) (ih (n + 1))

theorem groupRows_eq (groupBy : List String) (aggs : List Agg) (groups : Groups) :
    groupRows groupBy aggs groups =
      (groups.map (groupRecord groupBy aggs)).zipIdx.map fun p => (Fin.ofNat _ p.2, p.1) := by
  rw [groupRows, List.zipIdx_map, List.map_map]
  rfl

theorem sameRows_groupRows (groupBy : List String) (aggs : List Agg) (g h : Groups) :
    SameRows (groupRows groupBy aggs g) (groupRows groupBy aggs h) ↔
      List.Forall₂ (fun x y => (groupRecord groupBy aggs x).Eqv (groupRecord groupBy aggs y))
        g h := by
  rw [groupRows_eq, groupRows_eq, sameRows_zipIdx, List.forall₂_map_left_iff,
    List.forall₂_map_right_iff]

end Adabt.Exec
