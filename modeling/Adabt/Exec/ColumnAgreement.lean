import Adabt.Exec.ColumnAggregates
import Adabt.Exec.Groups

/-! # When the columns aggregate as the rows do

A cell that is not a number counts for a sum or an average over the columns, and
not for one over the rows; and where nothing is kept, an aggregate without groups
has a row over the rows and none over the columns. Else the two agree. -/

set_option autoImplicit false

namespace Adabt.Exec
open Adabt.Core Adabt.Ir Adabt.Library

/-! ## Accumulators of the columns -/

/-- What a group of records leaves in the columns' accumulator of an output. -/
def columnAcc (a : Agg) (members : List Record) : AggAcc :=
  members.foldl (fun acc rec =>
    acc.observe (Decidable.decide (a.kind = .count ∧ a.field = none))
      (a.field.bind rec.get)) .default

def least (vs : List OrdValue) : Option OrdValue := vs.foldl AggAcc.lowest none

def greatest (vs : List OrdValue) : Option OrdValue := vs.foldl AggAcc.highest none

theorem least_append (vs : List OrdValue) (v : OrdValue) :
    least (vs ++ [v]) = AggAcc.lowest (least vs) v := by
  rw [least, List.foldl_append]
  rfl

theorem greatest_append (vs : List OrdValue) (v : OrdValue) :
    greatest (vs ++ [v]) = AggAcc.highest (greatest vs) v := by
  rw [greatest, List.foldl_append]
  rfl

theorem columnAcc_append (a : Agg) (members : List Record) (rec : Record) :
    columnAcc a (members ++ [rec]) = (columnAcc a members).observe
      (Decidable.decide (a.kind = .count ∧ a.field = none)) (a.field.bind rec.get) := by
  rw [columnAcc, List.foldl_append]
  rfl

theorem columnAcc_rows {a : Agg} (h : a.kind = .count ∧ a.field = none) (members : List Record) :
    (columnAcc a members).count = UInt64.ofNat members.length := by
  induction members using List.reverseRecOn with
  | nil => rfl
  | append_singleton members rec ih =>
    rw [columnAcc_append, decide_eq_true h, List.length_append, List.length_singleton, ofNat_succ,
      ← ih]
    rfl

theorem columnAcc_values {a : Agg} (h : ¬(a.kind = .count ∧ a.field = none))
    (members : List Record) :
    columnAcc a members = ⟨UInt64.ofNat (values a members).length,
      F64.sumOf (numbers a members), Decidable.decide (values a members ≠ []),
      least (values a members),
      greatest (values a members)⟩ := by
  induction members using List.reverseRecOn with
  | nil => rfl
  | append_singleton members rec ih =>
    rw [columnAcc_append, decide_eq_false h, ih, values_append, numbers_append, numbers_single]
    cases hv : a.field.bind rec.get with
    | none => simp [values_single_none hv, AggAcc.observe]
    | some v =>
      cases hnull : v.1.isNull with
      | true =>
        rw [AggAcc.observe_null _ hnull, values_single_null hv hnull, Option.bind_some,
          asF64_isNull hnull]
        simp
      | false =>
        rw [AggAcc.observe_value _ hnull, values_single hv hnull, Option.bind_some,
          List.length_append, List.length_singleton, ofNat_succ, least_append, greatest_append]
        cases hn : asF64 v.1 with
        | none => simp
        | some n => simp [sumOf_append]

theorem rowAcc_min {a : Agg} (h : a.kind = .min) (members : List Record) :
    (rowAcc a members).min = least (values a members) := by
  induction members using List.reverseRecOn with
  | nil => rfl
  | append_singleton members rec ih =>
    rw [rowAcc_append, values_append, AggAcc.take, h]
    dsimp only
    cases hv : a.field.bind rec.get with
    | none => simpa [values_single_none hv] using ih
    | some v =>
      cases hnull : v.1.isNull with
      | true => simpa [values_single_null hv hnull, hnull] using ih
      | false =>
        rw [values_single hv hnull, least_append, ← ih]
        simp [hnull, AggAcc.lowered_eq]

theorem rowAcc_max {a : Agg} (h : a.kind = .max) (members : List Record) :
    (rowAcc a members).max = greatest (values a members) := by
  induction members using List.reverseRecOn with
  | nil => rfl
  | append_singleton members rec ih =>
    rw [rowAcc_append, values_append, AggAcc.take, h]
    dsimp only
    cases hv : a.field.bind rec.get with
    | none => simpa [values_single_none hv] using ih
    | some v =>
      cases hnull : v.1.isNull with
      | true => simpa [values_single_null hv hnull, hnull] using ih
      | false =>
        rw [values_single hv hnull, greatest_append, ← ih]
        simp [hnull, AggAcc.raised_eq]

/-! ## The two results -/

def total (sum : F64) (any : Bool) : OrdValue := if any then ⟨.f64 sum, trivial⟩ else nullValue

/-- What the rows answer for an output of a group. -/
def rowResult (a : Agg) (members : List Record) : OrdValue :=
  match a.kind with
  | .count => ⟨.u64 (UInt64.ofNat (counted a members)), trivial⟩
  | .sum => total (F64.sumOf (numbers a members)) (Decidable.decide (numbers a members ≠ []))
  | .avg => mean (F64.sumOf (numbers a members)) (UInt64.ofNat (numbers a members).length)
  | .min => (least (values a members)).getD nullValue
  | .max => (greatest (values a members)).getD nullValue

/-- What the columns answer. -/
def columnResult (a : Agg) (members : List Record) : OrdValue :=
  match a.kind with
  | .count => ⟨.u64 (UInt64.ofNat (counted a members)), trivial⟩
  | .sum => total (F64.sumOf (numbers a members)) (Decidable.decide (values a members ≠ []))
  | .avg => mean (F64.sumOf (numbers a members)) (UInt64.ofNat (values a members).length)
  | .min => (least (values a members)).getD nullValue
  | .max => (greatest (values a members)).getD nullValue

theorem rowAcc_result (a : Agg) (members : List Record) :
    (rowAcc a members).result a.kind = rowResult a members := by
  unfold rowResult
  cases hk : a.kind with
  | count => rw [AggAcc.result, rowAcc_count hk]
  | sum => rw [rowAcc_numbers (.inl hk)]; rfl
  | avg => rw [rowAcc_numbers (.inr hk)]; rfl
  | min => rw [AggAcc.result, rowAcc_min hk]
  | max => rw [AggAcc.result, rowAcc_max hk]

theorem columnAcc_result (a : Agg) (members : List Record) :
    (columnAcc a members).result a.kind = columnResult a members := by
  unfold columnResult
  cases hk : a.kind with
  | count =>
    rw [AggAcc.result, counted]
    by_cases hf : a.field = none
    · rw [columnAcc_rows ⟨hk, hf⟩, if_pos hf]
    · rw [columnAcc_values (fun h => hf h.2), if_neg hf]
  | sum => rw [columnAcc_values (fun h => by simp [hk] at h)]; rfl
  | avg => rw [columnAcc_values (fun h => by simp [hk] at h)]; rfl
  | min => rw [columnAcc_values (fun h => by simp [hk] at h)]; rfl
  | max => rw [columnAcc_values (fun h => by simp [hk] at h)]; rfl

/-! ## Rows in another order -/

/-- The comparison of values as a sort reads them. -/
abbrev cmpOrd (v w : OrdValue) : Ordering := v.1.cmp w.1

theorem greatest_eq (vs : List OrdValue) : greatest vs = firstOf (fun v w => cmpOrd w v) vs := by
  have hstep : AggAcc.highest = keepFirst fun v w => cmpOrd w v := by
    funext m v
    have hgt : ∀ m : OrdValue, v.1.cmp m.1 = .gt ↔ m.1.cmp v.1 = .lt := by
      intro m
      rw [Value.cmp_swap]
      cases m.1.cmp v.1 <;> simp
    simp only [AggAcc.highest, keepFirst, cmpOrd, hgt]
  rw [greatest, hstep, firstOf]

theorem eqv_of_rel {R : OrdValue → OrdValue → Prop} (hR : ∀ v w, R v w → cmpOrd v w = .eq)
    {m n : Option OrdValue} (h : Option.Rel R m n) :
    (m.getD nullValue).1.Eqv (n.getD nullValue).1 := by
  cases h with
  | none => exact Value.Eqv.refl _
  | some he => exact hR _ _ he

theorem least_perm {vs ws : List OrdValue} (hK : LineOn cmpOrd (· ∈ vs)) (hp : vs.Perm ws) :
    ((least vs).getD nullValue).1.Eqv ((least ws).getD nullValue).1 :=
  eqv_of_rel (fun _ _ h => h) (firstOf_perm hK hp)

theorem greatest_perm {vs ws : List OrdValue} (hK : LineOn cmpOrd (· ∈ vs)) (hp : vs.Perm ws) :
    ((greatest vs).getD nullValue).1.Eqv ((greatest ws).getD nullValue).1 := by
  rw [greatest_eq, greatest_eq]
  exact eqv_of_rel (fun _ _ h => hK.symm h) (firstOf_perm hK.flip hp)

/-- The records of a group, in an order that an output does not depend on. -/
structure Reordered (a : Agg) (xs ys : List Record) : Prop where
  perm : xs.Perm ys
  sum : a.kind = .sum ∨ a.kind = .avg → F64.sumOf (numbers a xs) = F64.sumOf (numbers a ys)
  least : a.kind = .min →
    ((least (values a xs)).getD nullValue).1.Eqv ((Exec.least (values a ys)).getD nullValue).1
  greatest : a.kind = .max →
    ((greatest (values a xs)).getD nullValue).1.Eqv ((Exec.greatest (values a ys)).getD nullValue).1

theorem Reordered.refl (a : Agg) (xs : List Record) : Reordered a xs xs :=
  ⟨.refl xs, fun _ => rfl, fun _ => Value.Eqv.refl _, fun _ => Value.Eqv.refl _⟩

/-- A sum of the group has a number among its values, if it has values, and a mean
is the same over the values as over the numbers. -/
def Agrees (a : Agg) (members : List Record) : Prop :=
  (a.kind = .sum → values a members ≠ [] → numbers a members ≠ []) ∧
    (a.kind = .avg →
      (mean (F64.sumOf (numbers a members)) (UInt64.ofNat (values a members).length)).1.Eqv
        (mean (F64.sumOf (numbers a members)) (UInt64.ofNat (numbers a members).length)).1)

theorem counted_perm (a : Agg) {xs ys : List Record} (h : xs.Perm ys) :
    counted a xs = counted a ys := by
  rw [counted, counted, h.length_eq, (values_perm a h).length_eq]

theorem numbers_eq_nil {a : Agg} {members : List Record} (h : values a members = []) :
    numbers a members = [] := by
  rw [numbers, h]
  rfl

theorem total_eqv (sum : F64) (b c : Bool) : (total sum b).1.Eqv (total sum c).1 ↔ b = c := by
  cases b <;> cases c
  · exact ⟨fun _ => rfl, fun _ => Value.Eqv.refl _⟩
  · exact ⟨nofun, nofun⟩
  · exact ⟨nofun, nofun⟩
  · exact ⟨fun _ => rfl, fun _ => Value.Eqv.refl _⟩

/-- Where the columns' result is that of the rows. -/
theorem columnResult_eqv {a : Agg} {xs ys : List Record} (h : Reordered a xs ys) :
    (columnResult a xs).1.Eqv (rowResult a ys).1 ↔ Agrees a ys := by
  unfold columnResult rowResult Agrees
  have hlen := (values_perm a h.perm).length_eq
  cases hk : a.kind with
  | count =>
    simp only [counted_perm a h.perm, reduceCtorEq, false_imp_iff, and_self, iff_true]
    exact Value.Eqv.refl _
  | sum =>
    have hvals : values a xs = [] ↔ values a ys = [] := by
      rw [← List.length_eq_zero_iff, hlen, List.length_eq_zero_iff]
    simp only [h.sum (.inl hk), total_eqv, ne_eq, hvals, decide_eq_decide, reduceCtorEq,
      false_imp_iff, and_true, true_imp_iff]
    constructor
    · intro hiff hne
      exact hiff.mp hne
    · intro himp
      exact ⟨himp, fun hn hv => hn (numbers_eq_nil hv)⟩
  | avg => simp only [h.sum (.inr hk), hlen, reduceCtorEq, false_imp_iff, true_and, true_imp_iff]
  | min =>
    simp only [reduceCtorEq, false_imp_iff, and_self, iff_true]
    exact h.least hk
  | max =>
    simp only [reduceCtorEq, false_imp_iff, and_self, iff_true]
    exact h.greatest hk

/-! ## The two walks -/

variable {store : ColumnStore} {records : OrdMap RecordId Record}

/-- The records a predicate keeps, in id order. -/
def keptRecords (records : OrdMap RecordId Record) (predicate : Option Expr) : List Record :=
  (records.entries.filter fun r => keeps predicate r.2).map Prod.snd

/-- The same records as their rows stand in the columns. -/
def ColumnStore.keptRows (store : ColumnStore) (records : OrdMap RecordId Record)
    (predicate : Option Expr) : List Record :=
  ((store.liveRows records).filter fun r => keeps predicate r.2).map Prod.snd

theorem keptRows_perm (h : store.Holds records) (predicate : Option Expr) :
    (store.keptRows records predicate).Perm (keptRecords records predicate) :=
  ((store.liveRows_perm h).filter _).map _

theorem columnGroups_eq (h : store.Holds records) (groupBy : List String) (aggs : List Agg)
    (predicate : Option Expr) :
    store.aggregate groupBy (QuerySource.columnAggs aggs) predicate =
      (buckets cmpKeys (groupKey groupBy) (store.keptRows records predicate)).map fun b =>
        (b.1, aggs.map fun a => columnAcc a b.2) := by
  have hkept : store.live.filter (fun r => store.admits predicate r.2) =
      store.live.filter fun r => keeps predicate ((records.get r.1).getD ∅) :=
    List.filter_congr fun r hr => store.admits_eq h hr predicate
  have hrows : store.keptRows records predicate =
      (store.live.filter fun r => keeps predicate ((records.get r.1).getD ∅)).map
        fun r => (records.get r.1).getD ∅ := by
    rw [ColumnStore.keptRows, ColumnStore.liveRows, List.filter_map, List.map_map]
    rfl
  have hfresh : (QuerySource.columnAggs aggs).map (fun _ => AggAcc.default) =
      aggs.map fun _ => AggAcc.default := by
    rw [QuerySource.columnAggs, List.map_map]
    rfl
  rw [ColumnStore.aggregate, hkept, hfresh]
  -- A live row's cells are its record's fields.
  rw [List.foldl_ext _ (fun groups r => upsert cmpKeys (groupKey groupBy ((records.get r.1).getD ∅))
    (aggs.map fun _ => .default) (fun accs => List.zipWith (fun a acc => AggAcc.observe acc
      (Decidable.decide (a.kind = .count ∧ a.field = none))
      (a.field.bind ((records.get r.1).getD ∅).get))
      aggs accs) groups) []]
  · rw [hrows, ← List.foldl_map (f := fun r : RecordId × ℕ => (records.get r.1).getD ∅)
      (g := fun groups rec => upsert cmpKeys (groupKey groupBy rec) (aggs.map fun _ => .default)
        (fun accs => List.zipWith (fun a acc => AggAcc.observe acc
          (Decidable.decide (a.kind = .count ∧ a.field = none))
          (a.field.bind rec.get)) aggs accs) groups),
      foldl_upsert cmpKeys (groupKey groupBy) (fun accs rec => List.zipWith (fun a acc =>
        AggAcc.observe acc (Decidable.decide (a.kind = .count ∧ a.field = none)) (a.field.bind rec.get))
        aggs accs)]
    simp only [foldl_zipWith (fun (a : Agg) acc (rec : Record) => AggAcc.observe acc
      (Decidable.decide (a.kind = .count ∧ a.field = none)) (a.field.bind rec.get))]
    rfl
  · intro groups r hr
    have hlive := (List.mem_filter.mp hr).1
    rw [upsertGroup_eq, store.columnKey_eq h hlive, QuerySource.columnAggs]
    congr 1
    funext accs
    rw [List.zipWith_map_left]
    simp only [store.cell_eq h hlive]

/-- The columns' rows stand in id order, or nothing that is asked depends on their
order: keys and extremes compare as points of a line, and sums are of integers. -/
inductive Orderly (store : ColumnStore) (records : OrdMap RecordId Record)
    (groupBy : List String) (aggs : List Agg) (predicate : Option Expr) : Prop
  | ascending (h : (store.live.map (·.1)).Pairwise (· < ·))
  | free
    (keys : LineOn cmpKeys (· ∈ (keptRecords records predicate).map (groupKey groupBy)))
    (sums : ∀ a ∈ aggs, a.kind = .sum ∨ a.kind = .avg →
      F64.Exact (numbers a (keptRecords records predicate)))
    (extremes : ∀ a ∈ aggs, a.kind = .min ∨ a.kind = .max →
      LineOn cmpOrd (· ∈ values a (keptRecords records predicate)))

theorem groups_match (h : store.Holds records) {groupBy : List String} {aggs : List Agg}
    {predicate : Option Expr} (ho : Orderly store records groupBy aggs predicate) :
    List.Forall₂ (fun b c => cmpKeys b.1 c.1 = .eq ∧ ∀ a ∈ aggs, Reordered a b.2 c.2)
      (buckets cmpKeys (groupKey groupBy) (store.keptRows records predicate))
      (buckets cmpKeys (groupKey groupBy) (keptRecords records predicate)) := by
  cases ho with
  | ascending ha =>
    have hsame : store.keptRows records predicate = keptRecords records predicate := by
      rw [ColumnStore.keptRows, store.liveRows_eq h ha, keptRecords]
    rw [hsame, List.forall₂_same]
    exact fun b _ => ⟨cmpKeys_self b.1, fun a _ => .refl a b.2⟩
  | free keys sums extremes =>
    have hperm := keptRows_perm h predicate
    have hkept : ∀ rec ∈ keptRecords records predicate,
        groupKey groupBy rec ∈ (keptRecords records predicate).map (groupKey groupBy) :=
      fun rec hrec => List.mem_map_of_mem hrec
    have hkept' : ∀ rec ∈ store.keptRows records predicate,
        groupKey groupBy rec ∈ (keptRecords records predicate).map (groupKey groupBy) :=
      fun rec hrec => hkept rec (hperm.mem_iff.mp hrec)
    have hrows := divides_buckets keys hkept
    have hside := Divides.perm keys hkept' hperm (divides_buckets keys hkept') hrows
    refine List.forall₂_iff_zip.mpr ⟨hside.length_eq, fun {b c} hbc => ?_⟩
    obtain ⟨hkey, hmembers⟩ := (List.forall₂_iff_zip.mp hside).2 hbc
    have hsub : c.2.Sublist (keptRecords records predicate) := by
      rw [hrows.members c (List.of_mem_zip hbc).2]
      exact List.filter_sublist
    refine ⟨hkey, fun a ha => ⟨hmembers, fun hk => ?_, fun hk => ?_, fun hk => ?_⟩⟩
    · have hexact := (sums a ha hk).sublist (numbers_sublist a hsub)
      exact (hexact.sumOf_perm (numbers_perm a hmembers.symm)).symm
    · have hline := (extremes a ha (.inl hk)).mono fun v hv => (values_sublist a hsub).subset hv
      apply least_perm _ (values_perm a hmembers)
      exact hline.mono fun v hv => (values_perm a hmembers).mem_iff.mp hv
    · have hline := (extremes a ha (.inr hk)).mono fun v hv => (values_sublist a hsub).subset hv
      apply greatest_perm _ (values_perm a hmembers)
      exact hline.mono fun v hv => (values_perm a hmembers).mem_iff.mp hv

theorem groupRows_agree (h : store.Holds records) {groupBy : List String} {aggs : List Agg}
    {predicate : Option Expr} (ho : Orderly store records groupBy aggs predicate) :
    SameRows
        (groupRows groupBy aggs (store.aggregate groupBy (QuerySource.columnAggs aggs) predicate))
        (groupRows groupBy aggs
          (aggregateGroups (records.entries.filter fun r => keeps predicate r.2) groupBy aggs)) ↔
      ∀ g ∈ buckets cmpKeys (groupKey groupBy) (keptRecords records predicate),
        ∀ a, Shown aggs a → Agrees a g.2 := by
  rw [columnGroups_eq h, aggregateGroups_eq, sameRows_groupRows, List.forall₂_map_left_iff,
    List.forall₂_map_right_iff, ← keptRecords]
  have hside := groups_match h ho
  have hrecord : ∀ b c : List OrdValue × List Record, cmpKeys b.1 c.1 = .eq →
      (∀ a ∈ aggs, Reordered a b.2 c.2) →
      ((groupRecord groupBy aggs (b.1, aggs.map fun a => columnAcc a b.2)).Eqv
          (groupRecord groupBy aggs (c.1, aggs.map fun a => rowAcc a c.2)) ↔
        ∀ a, Shown aggs a → Agrees a c.2) := by
    intro b c hkey hre
    rw [groupRecord_eq, groupRecord_eq, resultRecord_eqv hkey]
    simp only [columnAcc_result, rowAcc_result]
    exact forall₂_congr fun a ha => columnResult_eqv (hre a ha.mem)
  generalize buckets cmpKeys (groupKey groupBy) (store.keptRows records predicate) = s at hside ⊢
  generalize buckets cmpKeys (groupKey groupBy) (keptRecords records predicate) = t at hside ⊢
  induction hside with
  | nil => exact ⟨fun _ => nofun, fun _ => .nil⟩
  | cons hbc _ ih =>
    rw [List.forall₂_cons, List.forall_mem_cons]
    exact and_congr (hrecord _ _ hbc.1 hbc.2) ih

/-- The columns answer an aggregate as the rows do just when there is a group to
answer for and, in every group, each output that is shown agrees. -/
theorem columns_agree_iff {src : QuerySource} {collection : String} {groupBy : List String}
    {aggs : List Agg} {predicate : Option Expr} (hg : src.columns.get collection = some store)
    (h : store.Holds records) (ho : Orderly store records groupBy aggs predicate) :
    (∃ out, src.columnAggregate collection groupBy aggs predicate = some out ∧
        SameRows out
          (aggregate (records.entries.filter fun r => keeps predicate r.2) groupBy aggs)) ↔
      (groupBy ≠ [] ∨ ∃ r ∈ records.entries, keeps predicate r.2 = true) ∧
        ∀ g ∈ buckets cmpKeys (groupKey groupBy) (keptRecords records predicate),
          ∀ a, Shown aggs a → Agrees a g.2 := by
  have hempty : (aggregateGroups (records.entries.filter fun r => keeps predicate r.2)
      groupBy aggs).isEmpty = true ↔ ¬∃ r ∈ records.entries, keeps predicate r.2 = true := by
    rw [List.isEmpty_iff, aggregateGroups_eq, List.map_eq_nil_iff, buckets_eq_nil,
      List.map_eq_nil_iff, List.filter_eq_nil_iff]
    exact ⟨fun hall ⟨r, hr, hk⟩ => hall r hr hk, fun hn r hr hk => hn ⟨r, hr, hk⟩⟩
  simp only [QuerySource.columnAggregate, hg, aggregate]
  by_cases hinhabited : groupBy ≠ [] ∨ ∃ r ∈ records.entries, keeps predicate r.2 = true
  · have hif : ¬((aggregateGroups (records.entries.filter fun r => keeps predicate r.2)
        groupBy aggs).isEmpty && groupBy.isEmpty) = true := by
      rw [Bool.and_eq_true, hempty, List.isEmpty_iff]
      rintro ⟨hn, hnil⟩
      exact hinhabited.elim (fun hne => hne hnil) hn
    rw [if_neg hif, and_iff_right hinhabited, ← groupRows_agree h ho]
    constructor
    · rintro ⟨out, hout, hsame⟩
      cases hout
      exact hsame
    · exact fun hsame => ⟨_, rfl, hsame⟩
  · have hif : ((aggregateGroups (records.entries.filter fun r => keeps predicate r.2)
        groupBy aggs).isEmpty && groupBy.isEmpty) = true := by
      rw [Bool.and_eq_true, hempty, List.isEmpty_iff]
      exact ⟨fun hex => hinhabited (.inr hex), not_not.mp fun hne => hinhabited (.inl hne)⟩
    rw [if_pos hif]
    refine ⟨?_, fun hc => absurd hc.1 hinhabited⟩
    rintro ⟨out, hout, hsame⟩
    cases hout
    have hnone : store.keptRows records predicate = [] := by
      rw [List.eq_nil_iff_forall_not_mem]
      intro rec hrec
      obtain ⟨r, hr, -⟩ := List.mem_map.mp ((keptRows_perm h predicate).mem_iff.mp hrec)
      obtain ⟨hmem, hk⟩ := List.mem_filter.mp hr
      exact hinhabited (.inr ⟨r, hmem, hk⟩)
    rw [columnGroups_eq h, hnone] at hsame
    cases hsame

/-- One record with a text, and its columns. -/
def oneText : OrdMap RecordId Record :=
  (∅ : OrdMap RecordId Record).insert 0 ((∅ : Record).set "x" ⟨.str "a", trivial⟩)

def oneTextColumns : ColumnStore :=
  ⟨[(0, false)], (∅ : OrdMap String (List (Option OrdValue))).insert "x" [some ⟨.str "a", trivial⟩]⟩

def oneTextSource : QuerySource :=
  ⟨(∅ : OrdMap String (OrdMap RecordId Record)).insert "c" oneText, ∅,
    (∅ : OrdMap String ColumnStore).insert "c" oneTextColumns⟩

theorem oneText_holds : oneTextColumns.Holds oneText where
  ids := List.Perm.refl _
  cells := by
    intro r hr rec hrec name
    obtain rfl : r = (0, 0) := List.mem_singleton.mp hr
    cases hrec
    simp only [ColumnStore.cell, oneTextColumns, Record.set, OrdMap.get_insert]
    split_ifs
    · rfl
    · rfl

def countRows : Agg := ⟨.count, none, "n"⟩

def sumOfTexts : Agg := ⟨.sum, some "x", "s"⟩

theorem columns_agree_count :
    ∃ out, oneTextSource.columnAggregate "c" [] [countRows] none = some out ∧
      SameRows out (aggregate (oneText.entries.filter fun r => keeps none r.2) [] [countRows]) := by
  apply (columns_agree_iff rfl oneText_holds (.ascending (by decide))).mpr
  refine ⟨.inr ⟨_, List.mem_singleton.mpr rfl, rfl⟩, fun g _ a ha => ?_⟩
  obtain rfl : a = countRows := List.mem_singleton.mp ha.mem
  exact ⟨nofun, nofun⟩

/-- Nothing is counted where a predicate keeps nothing, and a text is summed to zero. -/
theorem columns_disagree : oneTextColumns.Holds oneText ∧
    (oneTextSource.columnAggregate "c" [] [countRows] (some (.literal (.bool false)))).map
      List.length = some 0 ∧
    (aggregate (oneText.entries.filter fun r => keeps (some (.literal (.bool false))) r.2) []
      [countRows]).length = 1 ∧
    ((oneTextSource.columnAggregate "c" [] [sumOfTexts] none).getD []).map
      (fun r => (r.2.get "s").map fun v => v.1.typeName) = [some "f64"] ∧
    (aggregate (oneText.entries.filter fun r => keeps none r.2) [] [sumOfTexts]).map
      (fun r => (r.2.get "s").map fun v => v.1.typeName) = [some "null"] :=
  ⟨oneText_holds, by decide⟩

end Adabt.Exec
