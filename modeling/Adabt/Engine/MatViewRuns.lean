import Adabt.Core.ValueOrder
import Adabt.Engine.MatView
import Adabt.Library.Program

/-! # A view answers what the scan answers

What a view holds for a group is what a walk over the group's records would have
accumulated, except that a sum remembers a number that was taken away. -/

set_option autoImplicit false

namespace Adabt.Engine
open Adabt.Core Adabt.Ir Adabt.Exec Adabt.Library

/-! ## What a record contributes -/

/-- The records whose keys tie with a key. -/
def members (groupBy : List String) (recs : List Record) (key : List OrdValue) : List Record :=
  recs.filter fun rec => cmpKeys (groupKey groupBy rec) key = .eq

/-- How many contributions records make to an aggregate. -/
def tally (a : Agg) (recs : List Record) : ℕ :=
  if a.kind = .count then counted a recs else (numbers a recs).length

theorem numbers_contribution {a : Agg} (h : a.kind ≠ .count) (rec : Record) :
    numbers a [rec] = (contribution a rec).toList := by
  rw [numbers_single, contribution]
  cases hk : a.kind <;> cases a.field <;> simp_all

theorem numbers_cons (a : Agg) (rec : Record) (recs : List Record) :
    numbers a (rec :: recs) = numbers a [rec] ++ numbers a recs := numbers_append a [rec] recs

theorem counted_cons {a : Agg} (h : a.kind = .count) (rec : Record) (recs : List Record) :
    counted a (rec :: recs) = (contribution a rec).toList.length + counted a recs := by
  rw [counted, counted, contribution, h]
  cases hf : a.field with
  | none => simp [Nat.add_comm]
  | some f =>
    have hbind : a.field.bind rec.get = rec.get f := by rw [hf, Option.bind_some]
    have happ : values a (rec :: recs) = values a [rec] ++ values a recs := values_append a [rec] recs
    simp only [reduceCtorEq, if_false, happ, List.length_append, Nat.add_right_cancel_iff]
    cases hv : rec.get f with
    | none => simp [values_single_none (hbind.trans hv)]
    | some v =>
      rw [Option.filter_some]
      cases hnull : v.1.isNull with
      | true => simp [values_single_null (hbind.trans hv) hnull]
      | false => simp [values_single (hbind.trans hv) hnull]

theorem tally_cons (a : Agg) (rec : Record) (recs : List Record) :
    tally a (rec :: recs) = (contribution a rec).toList.length + tally a recs := by
  rw [tally, tally]
  split_ifs with h
  · exact counted_cons h rec recs
  · rw [numbers_cons, numbers_contribution h, List.length_append]

theorem tally_perm (a : Agg) {xs ys : List Record} (h : xs.Perm ys) : tally a xs = tally a ys := by
  rw [tally, tally, counted, counted, h.length_eq, (values_perm a h).length_eq,
    (numbers_perm a h).length_eq]

/-! ## Budgets -/

/-- What went through a trusted sum are integers within 53 bits, those still there among them. -/
def BudgetOk (a : Agg) (b : Budget) (recs : List Record) : Prop :=
  b.exact = true → a.kind ≠ .count → ∃ spent : ℕ, spent < 2 ^ 53 ∧ b.spent = F64.ofInt spent ∧
    F64.magnitude (numbers a recs) ≤ spent ∧ ∀ f ∈ numbers a recs, f.IsInt f.intOf

theorem BudgetOk.perm {a : Agg} {b : Budget} {xs ys : List Record} (h : BudgetOk a b xs)
    (hp : xs.Perm ys) : BudgetOk a b ys := by
  intro he hk
  obtain ⟨spent, hlt, hs, hm, hints⟩ := h he hk
  have hn := numbers_perm a hp
  refine ⟨spent, hlt, hs, ?_, fun f hf => hints f (hn.mem_iff.mpr hf)⟩
  rw [F64.magnitude, ← (hn.map fun f => f.intOf.natAbs).sum_eq]
  exact hm

theorem charge_exact {b : Budget} {v : F64} {spent : ℕ} (hs : spent < 2 ^ 53)
    (hb : b.exact = true → b.spent = F64.ofInt spent) (h : (b.charge v).exact = true) :
    b.exact = true ∧ v.IsInt v.intOf ∧ spent + v.intOf.natAbs < 2 ^ 53 ∧
      (b.charge v).spent = F64.ofInt (spent + v.intOf.natAbs : ℕ) := by
  unfold Budget.charge at h ⊢
  split_ifs at h ⊢ with he hv
  · simp [h] at he
  · simp only [Bool.not_eq_eq_eq_not, Bool.not_true, Bool.not_eq_false] at he
    simp only [Bool.or_eq_true, Bool.not_eq_true', not_or, Bool.not_eq_false] at hv
    have hint := F64.isInt_of_whole hv.1 hv.2
    have hadd : b.spent.add v.abs = F64.ofInt (spent + v.intOf.natAbs : ℕ) := by
      rw [hb he, F64.ofInt_add hint.abs (by unfold F64.Small; omega)]
      push_cast
      rfl
    refine ⟨he, hint, ?_, hadd⟩
    by_contra hge
    simp only [hadd, exactIntegerLimit, F64.atLeast_ofInt (Nat.not_lt.mp hge)] at h
    cases h

theorem after_exact {a : Agg} {b : Budget} {rec : Record} (h : (b.after a rec).exact = true) :
    b.exact = true := by
  unfold Budget.after at h
  cases hc : contribution a rec with
  | none => simpa [hc] using h
  | some v =>
    rw [hc] at h
    dsimp only at h
    split_ifs at h
    · exact h
    · unfold Budget.charge at h
      split_ifs at h with he hv
      · exact h
      · simpa using he

theorem after_none {a : Agg} {b : Budget} {rec : Record} (h : contribution a rec = none) :
    b.after a rec = b := by
  rw [Budget.after, h]

theorem after_some {a : Agg} {b : Budget} {rec : Record} {v : F64} (h : contribution a rec = some v)
    (hk : a.kind ≠ .count) : b.after a rec = b.charge v := by
  rw [Budget.after, h]
  exact if_neg hk

theorem BudgetOk.add {a : Agg} {b : Budget} {recs : List Record} (h : BudgetOk a b recs)
    (rec : Record) : BudgetOk a (b.after a rec) (rec :: recs) := by
  intro he hk
  obtain ⟨spent, hlt, hs, hm, hints⟩ := h (after_exact he) hk
  rw [numbers_cons, numbers_contribution hk]
  cases hc : contribution a rec with
  | none =>
    rw [after_none hc]
    exact ⟨spent, hlt, hs, hm, hints⟩
  | some v =>
    rw [after_some hc hk] at he ⊢
    obtain ⟨-, hint, hsum, hspent⟩ := charge_exact hlt (fun _ => hs) he
    refine ⟨_, hsum, hspent, ?_, fun f hf => ?_⟩
    · rw [Option.toList_some, F64.magnitude, List.singleton_append, List.map_cons, List.sum_cons,
        ← F64.magnitude]
      omega
    · rcases List.mem_append.mp hf with hf | hf
      · rw [List.mem_singleton.mp hf]
        exact hint
      · exact hints f hf

theorem BudgetOk.takeAway {a : Agg} {b : Budget} {rec : Record} {recs : List Record}
    (h : BudgetOk a b (rec :: recs)) : BudgetOk a (b.after a rec) recs := by
  intro he hk
  obtain ⟨spent, hlt, hs, hm, hints⟩ := h (after_exact he) hk
  rw [numbers_cons, numbers_contribution hk] at hm hints
  cases hc : contribution a rec with
  | none =>
    rw [hc] at hm hints
    rw [after_none hc]
    exact ⟨spent, hlt, hs, hm, hints⟩
  | some v =>
    rw [hc] at hm hints
    rw [after_some hc hk] at he ⊢
    obtain ⟨-, -, hsum, hspent⟩ := charge_exact hlt (fun _ => hs) he
    refine ⟨_, hsum, hspent, ?_, fun f hf => hints f (List.mem_append_right _ hf)⟩
    rw [Option.toList_some, F64.magnitude, List.singleton_append, List.map_cons, List.sum_cons,
      ← F64.magnitude] at hm
    omega

/-! ## Accumulators -/

/-- The sum of the integers among the numbers. -/
def intSum (a : Agg) (recs : List Record) : ℤ := ((numbers a recs).map F64.intOf).sum

theorem intSum_perm (a : Agg) {xs ys : List Record} (h : xs.Perm ys) : intSum a xs = intSum a ys :=
  ((numbers_perm a h).map F64.intOf).sum_eq

/-- An accumulator holds what its group's records add up to; unless it is stale, a sum
that saw a number has one. -/
structure AccOk (aggs : List Agg) (a : Agg) (b : Budget) (stale : Prop) (recs : List Record)
    (acc : Acc) : Prop where
  count : acc.count = tally a recs
  sum : a.kind ≠ .count → b.exact = true → acc.sum = F64.ofInt (intSum a recs)
  seen : a.kind ≠ .count → numbers a recs ≠ [] → acc.sawValue = true
  unseen : a.kind = .sum → Shown aggs a → ¬stale → numbers a recs = [] → acc.sawValue = false

variable {aggs : List Agg} {a : Agg} {b : Budget} {stale : Prop}

theorem AccOk.perm {xs ys : List Record} {acc : Acc} (h : AccOk aggs a b stale xs acc)
    (hp : xs.Perm ys) : AccOk aggs a b stale ys acc := by
  have hnil : numbers a xs = [] ↔ numbers a ys = [] := by
    rw [← List.length_eq_zero_iff, (numbers_perm a hp).length_eq, List.length_eq_zero_iff]
  constructor
  · rw [← tally_perm a hp]
    exact h.count
  · rw [← intSum_perm a hp]
    exact h.sum
  · intro hk hne
    exact h.seen hk fun hx => hne (hnil.mp hx)
  · intro hk hs hst hx
    exact h.unseen hk hs hst (hnil.mpr hx)

theorem AccOk.default (aggs : List Agg) (a : Agg) (b : Budget) (stale : Prop) :
    AccOk aggs a b stale [] .default := by
  constructor
  · rw [tally, counted]
    split_ifs <;> rfl
  · exact fun _ _ => rfl
  · exact fun _ h => absurd rfl h
  · exact fun _ _ _ _ => rfl

/-- Another group's records leave a trusted sum trusted, or make it distrusted. -/
theorem AccOk.after {recs : List Record} {acc : Acc} (h : AccOk aggs a b stale recs acc)
    (rec : Record) {stale' : Prop} (hst : stale → stale') :
    AccOk aggs a (b.after a rec) stale' recs acc :=
  ⟨h.count, fun hk he => h.sum hk (after_exact he), h.seen,
    fun hk hs hn => h.unseen hk hs fun hx => hn (hst hx)⟩

theorem small_intSum {recs all : List Record} (hsub : recs.Subperm all) (hb : BudgetOk a b all)
    (he : b.exact = true) (hk : a.kind ≠ .count) : F64.Small (intSum a recs) := by
  obtain ⟨spent, hlt, -, hm, -⟩ := hb he hk
  obtain ⟨l, hl, hs⟩ := hsub
  have hmag : F64.magnitude (numbers a recs) ≤ F64.magnitude (numbers a all) := by
    rw [F64.magnitude, ← ((numbers_perm a hl).map fun f => f.intOf.natAbs).sum_eq]
    exact ((numbers_sublist a hs).map fun f => f.intOf.natAbs).sum_le_sum fun _ _ => Nat.zero_le _
  have hsum : (intSum a recs).natAbs ≤ F64.magnitude (numbers a recs) := by
    rw [intSum, F64.magnitude]
    induction numbers a recs with
    | nil => exact le_rfl
    | cons f l ih =>
      rw [List.map_cons, List.map_cons, List.sum_cons, List.sum_cons]
      exact (Int.natAbs_add_le _ _).trans (Nat.add_le_add_left ih _)
  unfold F64.Small
  omega

theorem AccOk.add {recs all : List Record} {acc : Acc} (h : AccOk aggs a b stale recs acc)
    (hsub : recs.Subperm all) (hb : BudgetOk a b all) (rec : Record) :
    AccOk aggs a (b.after a rec) stale (rec :: recs) (acc.add (contribution a rec)) := by
  cases hc : contribution a rec with
  | none =>
    have hnone : a.kind ≠ .count → numbers a (rec :: recs) = numbers a recs := by
      intro hk
      rw [numbers_cons, numbers_contribution hk, hc]
      rfl
    rw [after_none hc]
    constructor
    · rw [tally_cons, hc, Option.toList_none, List.length_nil, Nat.zero_add]
      exact h.count
    · intro hk he
      rw [intSum, hnone hk]
      exact h.sum hk he
    · intro hk
      rw [hnone hk]
      exact h.seen hk
    · intro hk
      rw [hnone (by simp [hk])]
      exact h.unseen hk
  | some v =>
    constructor
    · rw [tally_cons, hc, Option.toList_some, List.length_singleton, Nat.add_comm, ← h.count]
      rfl
    · intro hk he
      have hexact := after_exact he
      obtain ⟨spent, hlt, hs, -, -⟩ := hb hexact hk
      rw [after_some hc hk] at he
      obtain ⟨-, hint, -, -⟩ := charge_exact hlt (fun _ => hs) he
      change acc.sum.add v = _
      rw [h.sum hk hexact, F64.ofInt_add hint (small_intSum hsub hb hexact hk), intSum,
        intSum, numbers_cons, numbers_contribution hk, hc, Option.toList_some, List.singleton_append,
        List.map_cons, List.sum_cons, add_comm]
    · exact fun _ _ => rfl
    · intro hk _ _ hnil
      rw [numbers_cons, numbers_contribution (by simp [hk]), hc] at hnil
      cases hnil

theorem AccOk.takeAway {rec : Record} {recs all : List Record} {acc : Acc}
    (h : AccOk aggs a b stale (rec :: recs) acc) (hsub : (rec :: recs).Subperm all)
    (hb : BudgetOk a b all) :
    AccOk aggs a (b.after a rec) (stale ∨ numbers a [rec] ≠ [] ∧ numbers a recs = []) recs
      (acc.takeAway (contribution a rec)) := by
  have hcount := h.count
  rw [tally_cons] at hcount
  cases hc : contribution a rec with
  | none =>
    have hnone : a.kind ≠ .count → numbers a (rec :: recs) = numbers a recs := by
      intro hk
      rw [numbers_cons, numbers_contribution hk, hc]
      rfl
    rw [after_none hc]
    constructor
    · rw [hc, Option.toList_none, List.length_nil, Nat.zero_add] at hcount
      exact hcount
    · intro hk he
      have hsum := h.sum hk he
      rw [intSum, hnone hk] at hsum
      exact hsum
    · intro hk
      rw [← hnone hk]
      exact h.seen hk
    · intro hk hs hst hnil
      apply h.unseen hk hs (fun hx => hst (.inl hx))
      rw [hnone (by simp [hk])]
      exact hnil
  | some v =>
    constructor
    · rw [hc, Option.toList_some, List.length_singleton] at hcount
      change acc.count - 1 = _
      omega
    · intro hk he
      have hexact := after_exact he
      obtain ⟨spent, hlt, hs, -, -⟩ := hb hexact hk
      rw [after_some hc hk] at he
      obtain ⟨-, hint, -, -⟩ := charge_exact hlt (fun _ => hs) he
      have hsum : intSum a (rec :: recs) = v.intOf + intSum a recs := by
        rw [intSum, numbers_cons, numbers_contribution hk, hc, Option.toList_some,
          List.singleton_append, List.map_cons, List.sum_cons, intSum]
      change acc.sum.sub v = _
      rw [h.sum hk hexact, F64.ofInt_sub hint (small_intSum hsub hb hexact hk), hsum,
        add_sub_cancel_left]
    · intro hk hne
      apply h.seen hk
      rw [numbers_cons]
      exact fun hx => hne (List.append_eq_nil_iff.mp hx).2
    · intro hk _ hst hnil
      exfalso
      apply hst
      right
      refine ⟨?_, hnil⟩
      rw [numbers_contribution (by simp [hk]), hc]
      exact List.cons_ne_nil _ _

/-! ## Views -/

variable {K : List OrdValue → Prop} {groupBy : List String}

theorem members_cons_of_eq {rec : Record} {recs : List Record} {key : List OrdValue}
    (h : cmpKeys (groupKey groupBy rec) key = .eq) :
    members groupBy (rec :: recs) key = rec :: members groupBy recs key := by
  simp [members, h]

theorem members_cons_of_ne {rec : Record} {recs : List Record} {key : List OrdValue}
    (h : cmpKeys (groupKey groupBy rec) key ≠ .eq) :
    members groupBy (rec :: recs) key = members groupBy recs key := by
  simp [members, h]

theorem members_subperm (groupBy : List String) (recs : List Record) (key : List OrdValue) :
    (members groupBy recs key).Subperm recs := List.filter_sublist.subperm

/-- Keys that tie have the same members. -/
theorem members_congr (hK : LineOn cmpKeys K) {recs : List Record}
    (hr : ∀ rec ∈ recs, K (groupKey groupBy rec)) {k k' : List OrdValue} (hk : K k) (hk' : K k')
    (h : cmpKeys k k' = .eq) : members groupBy recs k = members groupBy recs k' := by
  apply List.filter_congr
  intro rec hrec
  rw [hK.congr_right (hr rec hrec) hk hk' h]

/-- What a view's group holds of the records. -/
structure GroupOk (aggs : List Agg) (b : Agg → Budget) (stale : Agg → Prop) (recs : List Record)
    (g : Group) : Prop where
  rows : g.rows = recs.length
  accs : ∃ f : Agg → Acc, g.accs = aggs.map f ∧
    ∀ a ∈ aggs, AccOk aggs a (b a) (stale a) recs (f a)

/-- The view is of these records, with sums that are stale for these groups. -/
structure Tracks (K : List OrdValue → Prop) (stale : Agg → List OrdValue → Prop) (v : View)
    (recs : List Record) : Prop where
  keys : ∀ rec ∈ recs, K (groupKey v.groupBy rec)
  ascending : Ascending cmpKeys v.groups
  lined : ∀ g ∈ v.groups, K g.1
  covered : ∀ rec ∈ recs, ∃ g ∈ v.groups, cmpKeys (groupKey v.groupBy rec) g.1 = .eq
  inhabited : ∀ g ∈ v.groups, members v.groupBy recs g.1 ≠ []
  state : ∃ b : Agg → Budget, v.budgets = v.aggs.map b ∧ (∀ a ∈ v.aggs, BudgetOk a (b a) recs) ∧
    ∀ g ∈ v.groups, GroupOk v.aggs b (fun a => stale a g.1) (members v.groupBy recs g.1) g.2

theorem Tracks.new (groupBy : List String) (aggs : List Agg) :
    Tracks K (fun _ _ => False) (.new groupBy aggs) [] := by
  refine ⟨nofun, List.Pairwise.nil, nofun, nofun, nofun, ⟨fun _ => ⟨true, ⟨0⟩⟩, rfl, ?_, nofun⟩⟩
  intro a _ _ _
  exact ⟨0, by decide, rfl, Nat.zero_le _, nofun⟩

theorem Tracks.perm {stale : Agg → List OrdValue → Prop} {v : View} {xs ys : List Record}
    (h : Tracks K stale v xs) (hp : xs.Perm ys) : Tracks K stale v ys := by
  have hm : ∀ key, (members v.groupBy xs key).Perm (members v.groupBy ys key) :=
    fun key => hp.filter _
  obtain ⟨b, hb, hbudgets, hgroups⟩ := h.state
  constructor
  · exact fun rec hrec => h.keys rec (hp.mem_iff.mpr hrec)
  · exact h.ascending
  · exact h.lined
  · exact fun rec hrec => h.covered rec (hp.mem_iff.mpr hrec)
  · intro g hg hnil
    exact h.inhabited g hg (List.Perm.eq_nil (hnil ▸ hm g.1))
  · refine ⟨b, hb, fun a ha => (hbudgets a ha).perm hp, fun g hg => ?_⟩
    obtain ⟨hrows, f, hf, hok⟩ := hgroups g hg
    exact ⟨hrows.trans (hm g.1).length_eq, f, hf, fun a ha => (hok a ha).perm (hm g.1)⟩

/-- A sum that has a number is not stale. -/
theorem Tracks.fresh {stale : Agg → List OrdValue → Prop} {v : View} {recs : List Record}
    (h : Tracks K stale v recs)
    (hf : ∀ g ∈ v.groups, ∀ a, Shown v.aggs a → a.kind = .sum → stale a g.1 →
      numbers a (members v.groupBy recs g.1) ≠ []) :
    Tracks K (fun _ _ => False) v recs := by
  obtain ⟨b, hb, hbudgets, hgroups⟩ := h.state
  refine ⟨h.keys, h.ascending, h.lined, h.covered, h.inhabited, b, hb, hbudgets, fun g hg => ?_⟩
  obtain ⟨hrows, f, hfa, hok⟩ := hgroups g hg
  refine ⟨hrows, f, hfa, fun a ha => ?_⟩
  have hacc := hok a ha
  refine ⟨hacc.count, hacc.sum, hacc.seen, fun hk hs _ hnil => ?_⟩
  exact hacc.unseen hk hs (fun hst => hf g hg a hs hk hst hnil) hnil

theorem zipWith_accs (aggs : List Agg) (f : Agg → Acc) (h : Agg → Acc → Acc) :
    List.zipWith h aggs (aggs.map f) = aggs.map fun a => h a (f a) := by
  rw [List.zipWith_map_right, List.zipWith_self]

theorem charged_eq {v : View} {b : Agg → Budget} (h : v.budgets = v.aggs.map b) (rec : Record) :
    v.charged rec = v.aggs.map fun a => (b a).after a rec := by
  rw [View.charged, h, List.zipWith_map_right, List.zipWith_self]

theorem Tracks.insert (hK : LineOn cmpKeys K) {stale : Agg → List OrdValue → Prop} {v : View}
    {recs : List Record} (h : Tracks K stale v recs) {rec : Record}
    (hrec : K (groupKey v.groupBy rec)) : Tracks K stale (v.insert rec) (rec :: recs) := by
  obtain ⟨b, hb, hbudgets, hgroups⟩ := h.state
  have hmem := fun x => @mem_upsert _ _ _ _ hK _ _ hrec h.lined h.ascending
    ⟨0, v.aggs.map fun _ => .default⟩
    (fun g : Group => ⟨g.rows + 1,
      List.zipWith (fun a acc => acc.add (contribution a rec)) v.aggs g.accs⟩) x
  have hadd : ∀ g : List OrdValue × Group, cmpKeys (groupKey v.groupBy rec) g.1 = .eq →
      GroupOk v.aggs b (fun a => stale a g.1) (members v.groupBy recs g.1) g.2 →
      GroupOk v.aggs (fun a => (b a).after a rec) (fun a => stale a g.1)
        (members v.groupBy (rec :: recs) g.1) ⟨g.2.rows + 1,
          List.zipWith (fun a acc => acc.add (contribution a rec)) v.aggs g.2.accs⟩ := by
    rintro g he ⟨hrows, f, hf, hok⟩
    rw [members_cons_of_eq he]
    refine ⟨by rw [List.length_cons, hrows], fun a => (f a).add (contribution a rec), ?_, ?_⟩
    · rw [hf, zipWith_accs]
    · intro a ha
      exact (hok a ha).add (members_subperm _ _ _) (hbudgets a ha) rec
  constructor
  · intro r hr
    rcases List.mem_cons.mp hr with rfl | hr
    · exact hrec
    · exact h.keys r hr
  · exact ascending_upsert hK hrec h.lined h.ascending
  · intro g hg
    rcases (hmem g).mp hg with ⟨g', hg', -, rfl⟩ | ⟨hg, -⟩ | ⟨-, rfl⟩
    · exact h.lined g' hg'
    · exact h.lined g hg
    · exact hrec
  · intro r hr
    rcases List.mem_cons.mp hr with rfl | hr
    · by_cases hex : ∃ g ∈ v.groups, cmpKeys (groupKey v.groupBy r) g.1 = .eq
      · obtain ⟨g, hg, he⟩ := hex
        exact ⟨_, (hmem _).mpr (.inl ⟨g, hg, he, rfl⟩), he⟩
      · exact ⟨_, (hmem _).mpr (.inr (.inr ⟨fun g hg he => hex ⟨g, hg, he⟩, rfl⟩)), cmpKeys_self _⟩
    · obtain ⟨g, hg, he⟩ := h.covered r hr
      by_cases hrg : cmpKeys (groupKey v.groupBy rec) g.1 = .eq
      · exact ⟨_, (hmem _).mpr (.inl ⟨g, hg, hrg, rfl⟩), he⟩
      · exact ⟨g, (hmem _).mpr (.inr (.inl ⟨hg, hrg⟩)), he⟩
  · intro g hg
    rcases (hmem g).mp hg with ⟨g', hg', he, rfl⟩ | ⟨hg, hne⟩ | ⟨-, rfl⟩
    · rw [View.insert, members_cons_of_eq he]
      exact List.cons_ne_nil _ _
    · rw [View.insert, members_cons_of_ne hne]
      exact h.inhabited g hg
    · rw [View.insert, members_cons_of_eq (cmpKeys_self _)]
      exact List.cons_ne_nil _ _
  · refine ⟨fun a => (b a).after a rec, charged_eq hb rec, fun a ha => (hbudgets a ha).add rec, ?_⟩
    intro g hg
    rcases (hmem g).mp hg with ⟨g', hg', he, rfl⟩ | ⟨hg, hne⟩ | ⟨hne, rfl⟩
    · exact hadd g' he (hgroups g' hg')
    · obtain ⟨hrows, f, hf, hok⟩ := hgroups g hg
      rw [View.insert, members_cons_of_ne hne]
      exact ⟨hrows, f, hf, fun a ha => (hok a ha).after rec id⟩
    · have hnil : members v.groupBy recs (groupKey v.groupBy rec) = [] := by
        apply List.filter_eq_nil_iff.mpr
        intro r hr
        obtain ⟨g, hg, he⟩ := h.covered r hr
        rw [decide_eq_true_eq, hK.congr_left (h.keys r hr) (h.lined g hg) hrec he]
        exact fun hgr => hne g hg (hK.symm hgr)
      apply hadd (groupKey v.groupBy rec, ⟨0, v.aggs.map fun _ => .default⟩) (cmpKeys_self _)
      rw [hnil]
      exact ⟨rfl, fun _ => .default, rfl, fun a _ => .default v.aggs a (b a) _⟩

/-- Taking a record away leaves a sum stale for its group, if rows stay and no number does. -/
theorem Tracks.remove (hK : LineOn cmpKeys K) {stale : Agg → List OrdValue → Prop} {v : View}
    {recs : List Record} {rec : Record} (h : Tracks K stale v (rec :: recs)) :
    Tracks K (fun a key => stale a key ∨ cmpKeys (groupKey v.groupBy rec) key = .eq ∧
        numbers a [rec] ≠ [] ∧ members v.groupBy recs key ≠ [] ∧
          numbers a (members v.groupBy recs key) = [])
      (v.remove rec) recs := by
  obtain ⟨b, hb, hbudgets, hgroups⟩ := h.state
  have hrec := h.keys rec List.mem_cons_self
  have hany : (v.groups.any fun g => cmpKeys (groupKey v.groupBy rec) g.1 = .eq) = true := by
    obtain ⟨g, hg, he⟩ := h.covered rec List.mem_cons_self
    exact List.any_eq_true.mpr ⟨g, hg, by simpa using he⟩
  have hmem := fun x => mem_revise hK hrec h.lined h.ascending (x := x)
    (f := fun g : Group => if g.rows - 1 = 0 then none else some ⟨g.rows - 1,
      List.zipWith (fun a acc => acc.takeAway (contribution a rec)) v.aggs g.accs⟩)
  have hrows : ∀ g ∈ v.groups, cmpKeys (groupKey v.groupBy rec) g.1 = .eq →
      g.2.rows - 1 = (members v.groupBy recs g.1).length := by
    intro g hg he
    have hr := (hgroups g hg).rows
    rw [members_cons_of_eq he, List.length_cons] at hr
    omega
  rw [View.remove, if_pos hany]
  constructor
  · exact fun r hr => h.keys r (List.mem_cons_of_mem _ hr)
  · exact ascending_revise hK hrec h.lined h.ascending
  · intro g hg
    rcases (hmem g).mp hg with ⟨g', hg', -, he, -⟩ | ⟨hg, -⟩
    · rw [he]
      exact h.lined g' hg'
    · exact h.lined g hg
  · intro r hr
    obtain ⟨g, hg, he⟩ := h.covered r (List.mem_cons_of_mem _ hr)
    by_cases hrg : cmpKeys (groupKey v.groupBy rec) g.1 = .eq
    · have hin : r ∈ members v.groupBy recs g.1 := List.mem_filter.mpr ⟨hr, by simpa using he⟩
      have hpos : ¬g.2.rows - 1 = 0 := by
        rw [hrows g hg hrg]
        exact (List.length_pos_of_mem hin).ne'
      exact ⟨(g.1, ⟨g.2.rows - 1,
        List.zipWith (fun a acc => acc.takeAway (contribution a rec)) v.aggs g.2.accs⟩),
        (hmem _).mpr (.inl ⟨g, hg, hrg, rfl, if_neg hpos⟩), he⟩
    · exact ⟨g, (hmem _).mpr (.inr ⟨hg, hrg⟩), he⟩
  · intro g hg
    rcases (hmem g).mp hg with ⟨g', hg', he, hkey, hval⟩ | ⟨hg, hne⟩
    · split_ifs at hval with hzero
      rw [hkey]
      intro hnil
      rw [hrows g' hg' he, hnil] at hzero
      exact hzero rfl
    · have hin := h.inhabited g hg
      rwa [members_cons_of_ne hne] at hin
  · refine ⟨fun a => (b a).after a rec, charged_eq hb rec,
      fun a ha => (hbudgets a ha).takeAway, ?_⟩
    intro g hg
    rcases (hmem g).mp hg with ⟨g', hg', he, hkey, hval⟩ | ⟨hg, hne⟩
    · split_ifs at hval with hzero
      obtain ⟨-, f, hf, hok⟩ := hgroups g' hg'
      have hne : members v.groupBy recs g'.1 ≠ [] := by
        intro hnil
        rw [hrows g' hg' he, hnil] at hzero
        exact hzero rfl
      rw [← Option.some.inj hval, hkey]
      refine ⟨hrows g' hg' he, fun a => (f a).takeAway (contribution a rec), ?_, fun a ha => ?_⟩
      · rw [hf, zipWith_accs]
      · have hacc := hok a ha
        have hsub := members_subperm v.groupBy (rec :: recs) g'.1
        rw [members_cons_of_eq he] at hacc hsub
        have htaken := hacc.takeAway hsub (hbudgets a ha)
        refine ⟨htaken.count, htaken.sum, htaken.seen, fun hk hs hst hnil => ?_⟩
        apply htaken.unseen hk hs _ hnil
        rintro (hx | ⟨hx, -⟩)
        · exact hst (.inl hx)
        · exact hst (.inr ⟨he, hx, hne, hnil⟩)
    · obtain ⟨hr, f, hf, hok⟩ := hgroups g hg
      rw [members_cons_of_ne hne] at hr hok
      exact ⟨hr, f, hf, fun a ha => (hok a ha).after rec .inl⟩

/-! ## The answer -/

theorem keyRow_eq (v : View) (key : List OrdValue) (f : Agg → Acc) :
    v.row key (v.aggs.map f) = resultRecord v.groupBy v.aggs key fun a => View.result a (f a) := by
  simp only [View.row, resultRecord]
  generalize (v.groupBy.zip key).foldl (fun (rec : Record) p => rec.set p.1 p.2) ∅ = out
  induction v.aggs generalizing out with
  | nil => rfl
  | cons a aggs ih => exact ih _

/-- The aggregates a view maintains. -/
def Maintained (aggs : List Agg) : Prop :=
  ∀ a ∈ aggs, a.kind = .count ∨ a.kind = .sum ∨ a.kind = .avg

theorem result_eq {recs : List Record} {acc : Acc}
    (h : AccOk aggs a b False recs acc) (hm : a.kind = .count ∨ a.kind = .sum ∨ a.kind = .avg)
    (he : b.exact = true) (hb : BudgetOk a b recs) (hs : Shown aggs a) :
    View.result a acc = (rowAcc a recs).result a.kind := by
  have hsum : a.kind ≠ .count → acc.sum = F64.sumOf (numbers a recs) := by
    intro hk
    obtain ⟨spent, hlt, -, hmag, hints⟩ := hb he hk
    have hexact : F64.Exact (numbers a recs) := ⟨hints, by omega⟩
    rw [h.sum hk he, hexact.sumOf_eq, intSum]
  have hcount := h.count
  unfold View.result
  rcases hm with hk | hk | hk
  · rw [tally, if_pos hk] at hcount
    simp only [hk, AggAcc.result, rowAcc_count hk, hcount]
  · have hnc : a.kind ≠ .count := by simp [hk]
    have hsaw : acc.sawValue = decide (numbers a recs ≠ []) := by
      by_cases hnil : numbers a recs = []
      · rw [h.unseen hk hs id hnil, hnil]
        rfl
      · rw [h.seen hnc hnil, decide_eq_true hnil]
    simp only [hk, AggAcc.result, rowAcc_numbers (.inl hk), hsum hnc, hsaw]
  · have hnc : a.kind ≠ .count := by simp [hk]
    rw [tally, if_neg hnc] at hcount
    simp only [hk, AggAcc.result, rowAcc_numbers (.inr hk), hsum hnc, hcount]

theorem Tracks.rows_eq (hK : LineOn cmpKeys K) {v : View} {records : OrdMap RecordId Record}
    (h : Tracks K (fun _ _ => False) v records.values) (hm : Maintained v.aggs)
    (he : v.isExact = true) :
    SameRows v.rows (aggregate records.entries v.groupBy v.aggs) := by
  obtain ⟨b, hb, hbudgets, hgroups⟩ := h.state
  have hexact : ∀ a ∈ v.aggs, (b a).exact = true := by
    intro a ha
    rw [View.isExact, hb, List.all_map, List.all_eq_true] at he
    exact he a ha
  have hd := divides_buckets hK h.keys
  have hside : List.Forall₂ (fun g c : List OrdValue × _ => cmpKeys g.1 c.1 = .eq) v.groups
      (buckets cmpKeys (groupKey v.groupBy) records.values) := by
    have hkeyed : ∀ c ∈ buckets cmpKeys (groupKey v.groupBy) records.values, K c.1 := by
      intro c hc
      obtain ⟨rec, hrec, hkey⟩ := hd.keyed c hc
      rw [hkey]
      exact h.keys rec hrec
    apply aligned hK h.lined hkeyed h.ascending hd.ascending
    · intro g hg
      obtain ⟨rec, hrec⟩ := List.exists_mem_of_ne_nil _ (h.inhabited g hg)
      obtain ⟨hmem, htie⟩ := List.mem_filter.mp hrec
      have htie : cmpKeys (groupKey v.groupBy rec) g.1 = .eq := by simpa using htie
      obtain ⟨c, hc, hrc⟩ := hd.covered rec hmem
      refine ⟨c, hc, ?_⟩
      rw [← hK.congr_left (h.keys rec hmem) (h.lined g hg) (hkeyed c hc) htie]
      exact hrc
    · intro c hc
      obtain ⟨rec, hrec, hkey⟩ := hd.keyed c hc
      obtain ⟨g, hg, htie⟩ := h.covered rec hrec
      rw [hkey]
      exact ⟨g, hg, hK.symm htie⟩
  -- Group by group, the records hold equal results.
  have hrecords : List.Forall₂ Record.Eqv (v.groups.map fun g => v.row g.1 g.2.accs)
      ((buckets cmpKeys (groupKey v.groupBy) records.values).map fun c =>
        groupRecord v.groupBy v.aggs (c.1, v.aggs.map fun a => rowAcc a c.2)) := by
    rw [List.forall₂_map_left_iff, List.forall₂_map_right_iff]
    refine List.forall₂_iff_zip.mpr ⟨hside.length_eq, fun {g c} hgc => ?_⟩
    have hg := (List.of_mem_zip hgc).1
    have hc := (List.of_mem_zip hgc).2
    have htie := (List.forall₂_iff_zip.mp hside).2 hgc
    have hKc : K c.1 := by
      obtain ⟨rec, hrec, hkey⟩ := hd.keyed c hc
      rw [hkey]
      exact h.keys rec hrec
    have hmembers : c.2 = members v.groupBy records.values g.1 := by
      rw [hd.members c hc, members_congr hK h.keys (h.lined g hg) hKc htie, members]
    obtain ⟨-, f, hf, hok⟩ := hgroups g hg
    rw [hf, keyRow_eq, groupRecord_eq, resultRecord_eqv htie, hmembers]
    intro a ha
    have hsub : BudgetOk a (b a) (members v.groupBy records.values g.1) := by
      intro hx hk
      obtain ⟨spent, hlt, hs, hmag, hints⟩ := hbudgets a ha.mem hx hk
      have hl := numbers_sublist a (List.filter_sublist (l := records.values)
        (p := fun rec => cmpKeys (groupKey v.groupBy rec) g.1 = .eq))
      refine ⟨spent, hlt, hs, le_trans ?_ hmag, fun x hx => hints x (hl.subset hx)⟩
      exact (hl.map fun x => x.intOf.natAbs).sum_le_sum fun _ _ => Nat.zero_le _
    rw [result_eq (hok a ha.mem) (hm a ha.mem) (hexact a ha.mem) hsub ha]
    exact Value.Eqv.refl _
  have hempty : v.groups.isEmpty =
      (aggregateGroups records.entries v.groupBy v.aggs).isEmpty := by
    rw [aggregateGroups_eq, List.isEmpty_map, Bool.eq_iff_iff, List.isEmpty_iff_length_eq_zero,
      List.isEmpty_iff_length_eq_zero, hside.length_eq]
    rfl
  rw [View.rows, aggregate, hempty]
  by_cases hif : ((aggregateGroups records.entries v.groupBy v.aggs).isEmpty &&
      v.groupBy.isEmpty) = true
  · rw [if_pos hif, if_pos hif]
    refine .cons ⟨rfl, ?_⟩ .nil
    change (v.row [] (v.aggs.map fun _ => .default)).Eqv
      (groupRecord v.groupBy v.aggs ([], v.aggs.map fun _ => .default))
    rw [keyRow_eq, groupRecord_eq, resultRecord_eqv (cmpKeys_self [])]
    intro a ha
    have hzero : View.result a .default = AggAcc.default.result a.kind := by
      rcases hm a ha.mem with hk | hk | hk <;> rw [View.result, hk] <;> rfl
    rw [hzero]
    exact Value.Eqv.refl _
  · rw [if_neg hif, if_neg hif, groupRows_eq, aggregateGroups_eq, List.map_map]
    exact (sameRows_zipIdx 0).mpr hrecords

/-! ## Runs -/

/-- Taking the record away, with these put back, leaves its group empty or every sum
that is shown with a number, if the record had one. -/
def Replaces (groupBy : List String) (aggs : List Agg) (others : List Record) (old : Record)
    (back : List Record) : Prop :=
  ∀ a, Shown aggs a → a.kind = .sum → numbers a [old] ≠ [] →
    members groupBy others (groupKey groupBy old) = [] ∨
      numbers a (members groupBy (back ++ others) (groupKey groupBy old)) ≠ []

/-- Keys compare as points of a line, and no sum loses its group's last number to a
record that leaves others behind. -/
def Change.Safe (K : List OrdValue → Prop) (c : Change) (s : Viewed) : Prop :=
  match c with
  | .insert _ rec => K (groupKey s.view.groupBy rec)
  | .remove id => ∀ old, s.records.get id = some old →
      Replaces s.view.groupBy s.view.aggs (s.records.erase id).values old []
  | .update id rec => K (groupKey s.view.groupBy rec) ∧ ∀ old, s.records.get id = some old →
      Replaces s.view.groupBy s.view.aggs (s.records.erase id).values old [rec]

/-- A view of the records, with no sum stale. -/
structure Follows (K : List OrdValue → Prop) (groupBy : List String) (aggs : List Agg)
    (s : Viewed) : Prop where
  groupBy : s.view.groupBy = groupBy
  aggs : s.view.aggs = aggs
  tracks : Tracks K (fun _ _ => False) s.view s.records.values

theorem values_insert {records : OrdMap RecordId Record} {id : RecordId} (rec : Record)
    (h : records.get id = none) : (records.insert id rec).values.Perm (rec :: records.values) :=
  (records.insert_perm h).map Prod.snd

theorem values_erase {records : OrdMap RecordId Record} {id : RecordId} {rec : Record}
    (h : records.get id = some rec) :
    records.values.Perm (rec :: (records.erase id).values) := (records.erase_perm h).map Prod.snd

theorem insert_erase (records : OrdMap RecordId Record) (id : RecordId) (rec : Record) :
    (records.erase id).insert id rec = records.insert id rec := by
  ext k : 1
  simp only [OrdMap.get_insert, OrdMap.get_erase]
  split_ifs <;> rfl

theorem remove_groupBy (v : View) (rec : Record) : (v.remove rec).groupBy = v.groupBy := by
  simp only [View.remove]
  split_ifs <;> rfl

theorem remove_aggs (v : View) (rec : Record) : (v.remove rec).aggs = v.aggs := by
  simp only [View.remove]
  split_ifs <;> rfl

theorem Follows.remove (hK : LineOn cmpKeys K) {s : Viewed} (h : Follows K groupBy aggs s)
    {id : RecordId} {old : Record} (ho : s.records.get id = some old)
    (hr : Replaces s.view.groupBy s.view.aggs (s.records.erase id).values old []) :
    Follows K groupBy aggs ⟨s.records.erase id, s.view.remove old⟩ := by
  have htracks := (h.tracks.perm (values_erase ho)).remove hK
  have hkey : K (groupKey s.view.groupBy old) :=
    (h.tracks.perm (values_erase ho)).keys old List.mem_cons_self
  refine ⟨(remove_groupBy _ _).trans h.groupBy, (remove_aggs _ _).trans h.aggs, htracks.fresh ?_⟩
  rintro g hg a ha hk (hx | ⟨htie, hnum, hne, hnil⟩)
  · exact hx.elim
  · have hr := hr a (remove_aggs s.view old ▸ ha) hk hnum
    have hKg := htracks.lined g hg
    have hkeys : ∀ rec ∈ (s.records.erase id).values, K (groupKey s.view.groupBy rec) := by
      intro rec hrec
      rw [← remove_groupBy s.view old]
      exact htracks.keys rec hrec
    rw [List.nil_append, members_congr hK hkeys hkey hKg htie] at hr
    exact absurd hnil (hr.resolve_left hne)

theorem Follows.update (hK : LineOn cmpKeys K) {s : Viewed} (h : Follows K groupBy aggs s)
    {id : RecordId} {old rec : Record} (ho : s.records.get id = some old)
    (hrec : K (groupKey s.view.groupBy rec))
    (hr : Replaces s.view.groupBy s.view.aggs (s.records.erase id).values old [rec]) :
    Follows K groupBy aggs ⟨s.records.insert id rec, s.view.update old rec⟩ := by
  have htracks := (h.tracks.perm (values_erase ho)).remove hK
  have hkey : K (groupKey s.view.groupBy old) :=
    (h.tracks.perm (values_erase ho)).keys old List.mem_cons_self
  have hnew : K (groupKey (s.view.remove old).groupBy rec) := by
    rw [remove_groupBy]
    exact hrec
  have hboth := htracks.insert hK hnew
  have hperm : (rec :: (s.records.erase id).values).Perm (s.records.insert id rec).values := by
    rw [← insert_erase]
    exact (values_insert rec (OrdMap.get_erase_self s.records id)).symm
  refine ⟨(remove_groupBy _ _).trans h.groupBy, (remove_aggs _ _).trans h.aggs,
    (hboth.fresh ?_).perm hperm⟩
  rintro g hg a ha hk (hx | ⟨htie, hnum, hne, hnil⟩)
  · exact hx.elim
  · have hr := hr a (remove_aggs s.view old ▸ ha) hk hnum
    have hKg := hboth.lined g hg
    have hkeys : ∀ r ∈ rec :: (s.records.erase id).values, K (groupKey s.view.groupBy r) := by
      intro r hr
      rw [← remove_groupBy s.view old]
      exact hboth.keys r hr
    have hkeys' : ∀ r ∈ (s.records.erase id).values, K (groupKey s.view.groupBy r) :=
      fun r hr => hkeys r (List.mem_cons_of_mem _ hr)
    rw [members_congr hK hkeys' hkey hKg htie] at hr
    have hnums := hr.resolve_left hne
    rw [List.singleton_append, members_congr hK hkeys hkey hKg htie] at hnums
    change numbers a (members (s.view.remove old).groupBy _ g.1) ≠ []
    rw [remove_groupBy]
    exact hnums

theorem follows_apply (hK : LineOn cmpKeys K) {s : Viewed} (h : Follows K groupBy aggs s)
    {c : Change} (hc : c.Safe K s) : Follows K groupBy aggs (c.apply s) := by
  cases c with
  | insert id rec =>
    simp only [Change.apply]
    cases hg : s.records.get id with
    | some _ => exact h
    | none =>
      exact ⟨h.groupBy, h.aggs, (h.tracks.insert hK hc).perm (values_insert rec hg).symm⟩
  | remove id =>
    simp only [Change.apply]
    cases hg : s.records.get id with
    | some old => exact h.remove hK hg (hc old hg)
    | none => exact h
  | update id rec =>
    simp only [Change.apply]
    cases hg : s.records.get id with
    | some old => exact h.update hK hg hc.1 (hc.2 old hg)
    | none => exact h

theorem Tracks.foldl_insert (hK : LineOn cmpKeys K) {v : View} {before recs : List Record}
    (h : Tracks K (fun _ _ => False) v before) (hr : ∀ rec ∈ recs, K (groupKey v.groupBy rec)) :
    Tracks K (fun _ _ => False) (recs.foldl View.insert v) (recs.reverse ++ before) := by
  induction recs generalizing v before with
  | nil => exact h
  | cons rec recs ih =>
    rw [List.foldl_cons, List.reverse_cons, List.append_assoc, List.singleton_append]
    apply ih (h.insert hK (hr rec List.mem_cons_self))
    exact fun r hmem => hr r (List.mem_cons_of_mem _ hmem)

theorem foldl_insert_fields (recs : List Record) (v : View) :
    (recs.foldl View.insert v).groupBy = v.groupBy ∧ (recs.foldl View.insert v).aggs = v.aggs := by
  induction recs generalizing v with
  | nil => exact ⟨rfl, rfl⟩
  | cons rec recs ih => exact ih _

theorem follows_build (hK : LineOn cmpKeys K) {records : OrdMap RecordId Record}
    (hr : ∀ rec ∈ records.values, K (groupKey groupBy rec)) :
    Follows K groupBy aggs ⟨records, .build groupBy aggs records⟩ := by
  obtain ⟨hg, ha⟩ := foldl_insert_fields records.values (.new groupBy aggs)
  refine ⟨hg, ha, ?_⟩
  have htracks := (Tracks.new groupBy aggs).foldl_insert hK hr
  rw [List.append_nil] at htracks
  exact htracks.perm records.values.reverse_perm

/-- While keys compare as points of a line and no sum is left without a number by a
record that leaves others behind, a trusted view answers what the scan answers. -/
theorem view_answers (hK : LineOn cmpKeys K) (hm : Maintained aggs)
    {records : OrdMap RecordId Record} (hr : ∀ rec ∈ records.values, K (groupKey groupBy rec))
    {cs : List Change}
    (hg : Guarded Change.apply (fun c s => c.Safe K s) ⟨records, .build groupBy aggs records⟩ cs) :
    let s := run Change.apply ⟨records, .build groupBy aggs records⟩ cs
    s.view.isExact = true → SameRows s.view.rows (aggregate s.records.entries groupBy aggs) := by
  intro s he
  have hf : Follows K groupBy aggs s :=
    run_invariant (I := Follows K groupBy aggs) (fun _ _ h hc => follows_apply hK h hc)
      (follows_build hK hr) hg
  have hrows := hf.tracks.rows_eq hK (by rw [hf.aggs]; exact hm) he
  rwa [hf.groupBy, hf.aggs] at hrows

/-- A number and a text under one field. -/
def mixed : OrdMap RecordId Record :=
  ((∅ : OrdMap RecordId Record).insert 0 ((∅ : Record).set "x" ⟨.i64 1, trivial⟩)).insert 1
    ((∅ : Record).set "x" ⟨.str "a", trivial⟩)

def sumOfX : Agg := ⟨.sum, some "x", "s"⟩

/-- Without grouping there is one key. -/
theorem lineOn_ungrouped : LineOn cmpKeys (· = []) := by
  constructor
  · exact fun a b => Value.cmpList_swap _ _
  · rintro a b c rfl rfl rfl _ _
    rfl

theorem view_answers_mixed :
    let s := run Change.apply ⟨mixed, .build [] [sumOfX] mixed⟩ [.remove 1]
    s.view.isExact = true → SameRows s.view.rows (aggregate s.records.entries [] [sumOfX]) := by
  apply view_answers lineOn_ungrouped
  · intro a ha
    rw [List.mem_singleton.mp ha]
    exact .inr (.inl rfl)
  · exact fun _ _ => rfl
  · refine ⟨?_, trivial⟩
    intro old ho a _ _ hnum
    cases ho
    right
    obtain rfl : a = sumOfX := List.mem_singleton.mp (Shown.mem ‹_›)
    exact absurd rfl hnum

/-- With its one number taken away, a group of texts still sums to zero. -/
theorem view_remembers :
    let s := run Change.apply ⟨mixed, .build [] [sumOfX] mixed⟩ [.remove 0]
    s.view.isExact = true ∧
      s.view.rows.map (fun r => (r.2.get "s").map fun v => v.1.typeName) = [some "f64"] ∧
      (aggregate s.records.entries [] [sumOfX]).map
        (fun r => (r.2.get "s").map fun v => v.1.typeName) = [some "null"] := by
  decide +kernel

end Adabt.Engine
