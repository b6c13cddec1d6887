import Adabt.Core.Rounding
import Adabt.Telemetry.Collector
import Mathlib.Data.Rat.Floor

/-! # Percentiles

The buckets of a histogram are in the order of the values, and a bucket's lower bound is
within a sixteenth of every value in it. So the bucket in which a rank is met is that of
the value which has the rank in sorted order, however the values came in. -/

set_option autoImplicit false

namespace Adabt.Telemetry
open Adabt.Core

namespace Histogram

/-! ## Buckets -/

/-- How far a value from the second region on is shifted. -/
def shift (v : ℕ) : ℕ := v.log2 - subBits

theorem octave {v : ℕ} (h : sub ≤ v) : subBits ≤ v.log2 := by
  have hv : v ≠ 0 := by
    rintro rfl
    cases h
  exact (Nat.le_log2 hv).mpr h

/-- What is left after the shift has five bits. -/
theorem shifted {v : ℕ} (h : sub ≤ v) : sub ≤ v / 2 ^ shift v ∧ v / 2 ^ shift v < 2 * sub := by
  have hv : v ≠ 0 := by rintro rfl; cases h
  have hlow : 2 ^ v.log2 ≤ v := Nat.log2_self_le hv
  have hhigh : v < 2 ^ (v.log2 + 1) := Nat.lt_log2_self
  have hoctave : shift v + subBits = v.log2 := Nat.sub_add_cancel (octave h)
  rw [Nat.le_div_iff_mul_le (by positivity), Nat.div_lt_iff_lt_mul (by positivity)]
  rw [← hoctave] at hlow hhigh
  simp only [sub]
  constructor
  · rwa [← pow_add, add_comm]
  · rwa [← pow_succ', ← pow_add, show subBits + 1 + shift v = shift v + subBits + 1 by omega]

theorem bucket_small {v : ℕ} (h : v < sub) : bucket v = v := if_pos h

theorem bucket_large {v : ℕ} (h : sub ≤ v) :
    bucket v = (shift v + 1) * sub + (v / 2 ^ shift v - sub) := if_neg (not_lt.mpr h)

theorem shift_mono {v w : ℕ} (hv : sub ≤ v) (h : v ≤ w) : shift v ≤ shift w := by
  have hw : w ≠ 0 := by rintro rfl; exact absurd (hv.trans h) (by decide)
  have hv0 : v ≠ 0 := by rintro rfl; cases hv
  apply Nat.sub_le_sub_right
  exact (Nat.le_log2 hw).mpr ((Nat.log2_self_le hv0).trans h)

theorem bucket_mono {v w : ℕ} (h : v ≤ w) : bucket v ≤ bucket w := by
  have hsub : sub = 16 := rfl
  rcases lt_or_ge w sub with hw | hw
  · rwa [bucket_small (h.trans_lt hw), bucket_small hw]
  rw [bucket_large hw]
  rcases lt_or_ge v sub with hv | hv
  · rw [bucket_small hv]
    have hle : sub ≤ (shift w + 1) * sub := Nat.le_mul_of_pos_left _ (Nat.succ_pos _)
    omega
  rw [bucket_large hv]
  have hbits := shifted hv
  rcases (shift_mono hv h).lt_or_eq with hlt | heq
  · have hle : (shift v + 2) * sub ≤ (shift w + 1) * sub := Nat.mul_le_mul_right _ (by omega)
    rw [hsub] at hbits hle ⊢
    omega
  · have hle : v / 2 ^ shift v ≤ w / 2 ^ shift v := Nat.div_le_div_right h
    rw [← heq]
    omega

theorem shift_lt {v : ℕ} (h : v < 2 ^ 64) : shift v < 60 := by
  have hlog : v.log2 < 64 := by
    rcases Nat.eq_zero_or_pos v with rfl | hv
    · decide
    · exact (Nat.log2_lt hv.ne').mpr h
  rw [shift, subBits]
  omega

theorem bucket_lt {v : ℕ} (h : v < 2 ^ 64) : bucket v < buckets := by
  have hbuckets : buckets = 976 := rfl
  have hsub : sub = 16 := rfl
  rcases lt_or_ge v sub with hv | hv
  · rw [bucket_small hv]
    omega
  · have hbits := shifted hv
    have hshift := shift_lt h
    rw [bucket_large hv]
    rw [hsub] at hbits ⊢
    omega

theorem valueAt_bucket {v : ℕ} (h : sub ≤ v) :
    valueAt (bucket v) = v / 2 ^ shift v * 2 ^ shift v := by
  have hsub : sub = 16 := rfl
  have hbits := shifted h
  rw [bucket_large h, valueAt]
  rw [hsub] at hbits ⊢
  have hrow : ((shift v + 1) * 16 + (v / 2 ^ shift v - 16)) / 16 - 1 = shift v := by omega
  have hplace : 16 + ((shift v + 1) * 16 + (v / 2 ^ shift v - 16)) % 16 = v / 2 ^ shift v := by
    omega
  rw [if_neg (by omega), hrow, hplace]

/-- The lower bound of a value's bucket is at most the value, and within a sixteenth of it. -/
theorem valueAt_near (v : ℕ) : valueAt (bucket v) ≤ v ∧ 15 * v ≤ 16 * valueAt (bucket v) := by
  rcases lt_or_ge v sub with hv | hv
  · rw [bucket_small hv, valueAt, if_pos hv]
    omega
  · have hbits := (shifted hv).1
    have hsplit := Nat.div_add_mod v (2 ^ shift v)
    have hrest := Nat.mod_lt v (show 0 < 2 ^ shift v by positivity)
    have hlow : 16 * 2 ^ shift v ≤ v / 2 ^ shift v * 2 ^ shift v := Nat.mul_le_mul_right _ hbits
    rw [valueAt_bucket hv]
    rw [mul_comm] at hsplit
    omega

/-- No bit of a lower bound is shifted out of its word. -/
theorem valueAt_word {i : ℕ} (h : i < buckets) (hi : sub ≤ i) :
    1 ≤ i / sub ∧ i / sub - 1 < 64 ∧ (sub + i % sub) * 2 ^ (i / sub - 1) < 2 ^ 64 := by
  have hbuckets : buckets = 976 := rfl
  have hsub : sub = 16 := rfl
  rw [hsub] at hi ⊢
  have hrow : i / 16 - 1 ≤ 59 := by omega
  have hpow : 2 ^ (i / 16 - 1) ≤ 2 ^ 59 := Nat.pow_le_pow_right (by decide) hrow
  refine ⟨by omega, by omega, ?_⟩
  calc (16 + i % 16) * 2 ^ (i / 16 - 1) ≤ 31 * 2 ^ 59 := Nat.mul_le_mul (by omega) hpow
    _ < 2 ^ 64 := by norm_num

/-! ## What a histogram holds -/

/-- A histogram that these values were recorded in, in any histograms merged into it. -/
inductive Recorded : Histogram → List ℕ → Prop where
  | new : Recorded .new []
  | record {h : Histogram} {values : List ℕ} {v : ℕ} (hv : v < 2 ^ 64) (hh : Recorded h values) :
      Recorded (h.record v) (v :: values)
  | merge {h other : Histogram} {values more : List ℕ} (hh : Recorded h values)
      (ho : Recorded other more) : Recorded (h.merge other) (values ++ more)

/-- How many of the values fall into a bucket. -/
def cell (values : List ℕ) (i : ℕ) : ℕ := values.countP fun v => bucket v = i

structure Holds (h : Histogram) (values : List ℕ) : Prop where
  word : ∀ v ∈ values, v < 2 ^ 64
  counts : h.counts = (List.range buckets).map (cell values)
  count : h.count = values.length
  least : ∀ v ∈ values, h.min ≤ v
  attained : h.min = 2 ^ 64 - 1 ∨ h.min ∈ values

theorem holds_new : Holds .new [] where
  word := fun _ hv => by cases hv
  counts := by
    rw [new, List.eq_replicate_iff.mpr ⟨List.length_map _ |>.trans List.length_range, ?_⟩]
    intro c hc
    obtain ⟨i, -, rfl⟩ := List.mem_map.mp hc
    rfl
  count := rfl
  least := fun _ hv => by cases hv
  attained := .inl rfl

theorem Holds.record {h : Histogram} {values : List ℕ} {v : ℕ} (hv : v < 2 ^ 64)
    (hh : Holds h values) : Holds (h.record v) (v :: values) where
  word := List.forall_mem_cons.mpr ⟨hv, hh.word⟩
  counts := by
    rw [Histogram.record, hh.counts]
    apply List.ext_getElem?
    intro i
    rw [List.getElem?_modify, List.getElem?_map, List.getElem?_map]
    cases hi : (List.range buckets)[i]? with
    | none => rfl
    | some j =>
      obtain ⟨hlt, hj⟩ := List.getElem?_eq_some_iff.mp hi
      rw [List.getElem_range] at hj
      rw [← hj, Option.map_some, Option.map_some, cell, cell, List.countP_cons]
      split_ifs with hv' hj' hj'
      · rfl
      · exact absurd (decide_eq_true hv') hj'
      · exact absurd (of_decide_eq_true hj') hv'
      · rfl
  count := by rw [count_record, hh.count, List.length_cons]
  least := by
    refine List.forall_mem_cons.mpr ⟨Nat.min_le_right _ _, fun w hw => ?_⟩
    exact (Nat.min_le_left _ _).trans (hh.least w hw)
  attained := by
    rcases Nat.le_total h.min v with hle | hle
    · have hmin : (h.record v).min = h.min := Nat.min_eq_left hle
      rw [hmin]
      exact hh.attained.imp_right (List.mem_cons_of_mem _)
    · have hmin : (h.record v).min = v := Nat.min_eq_right hle
      rw [hmin]
      exact .inr List.mem_cons_self

theorem Holds.merge {h other : Histogram} {values more : List ℕ} (hh : Holds h values)
    (ho : Holds other more) : Holds (h.merge other) (values ++ more) where
  word := List.forall_mem_append.mpr ⟨hh.word, ho.word⟩
  counts := by
    rw [Histogram.merge, hh.counts, ho.counts, List.zipWith_map, List.zipWith_self]
    apply List.map_congr_left
    intro i _
    rw [cell, cell, cell, List.countP_append]
  count := by rw [Histogram.merge, hh.count, ho.count, List.length_append]
  least := List.forall_mem_append.mpr
    ⟨fun v hv => (Nat.min_le_left _ _).trans (hh.least v hv),
      fun v hv => (Nat.min_le_right _ _).trans (ho.least v hv)⟩
  attained := by
    rcases Nat.le_total h.min other.min with hle | hle
    · have hmin : (h.merge other).min = h.min := Nat.min_eq_left hle
      rw [hmin]
      exact hh.attained.imp_right (List.mem_append_left _)
    · have hmin : (h.merge other).min = other.min := Nat.min_eq_right hle
      rw [hmin]
      exact ho.attained.imp_right (List.mem_append_right _)

theorem Recorded.holds {h : Histogram} {values : List ℕ} (hh : Recorded h values) :
    Holds h values := by
  induction hh with
  | new => exact holds_new
  | record hv _ ih => exact ih.record hv
  | merge _ _ ih ih' => exact ih.merge ih'

/-! ## Walking to a rank -/

/-- How many of the values fall into earlier buckets. -/
def below (values : List ℕ) (i : ℕ) : ℕ := values.countP fun v => bucket v < i

theorem below_succ (values : List ℕ) (i : ℕ) :
    below values (i + 1) = below values i + cell values i := by
  induction values with
  | nil => rfl
  | cons v values ih =>
    rw [below, below, cell, List.countP_cons, List.countP_cons, List.countP_cons]
    rw [below, below, cell] at ih
    rw [ih]
    simp only [decide_eq_true_eq]
    split_ifs <;> omega

theorem below_mono (values : List ℕ) {i j : ℕ} (h : i ≤ j) : below values i ≤ below values j := by
  apply List.countP_mono_left
  intro v _ hv
  rw [decide_eq_true_eq] at hv ⊢
  exact hv.trans_le h

/-- The walk stops at the bucket in which the target is met. -/
theorem walk_eq (h : Histogram) {values : List ℕ} {target b n i : ℕ}
    (hlow : below values b < target) (hhigh : target ≤ below values (b + 1)) (hi : i ≤ b)
    (hn : b < i + n) :
    h.walk target ((List.range' i n).map (cell values)) i (below values i) =
      Nat.max (valueAt b) h.min := by
  induction n generalizing i with
  | zero => omega
  | succ n ih =>
    rw [List.range'_succ, List.map_cons, walk, ← below_succ]
    rcases hi.lt_or_eq with hlt | rfl
    · have hmono : below values (i + 1) ≤ below values b := below_mono values hlt
      rw [if_neg (show ¬target ≤ below values (i + 1) by omega)]
      split_ifs with hempty
      · have hsame : below values (i + 1) = below values i := by
          rw [below_succ, hempty, Nat.add_zero]
        rw [← hsame]
        exact ih hlt (by omega)
      · exact ih hlt (by omega)
    · have hcell : cell values i ≠ 0 := by
        rw [below_succ] at hhigh
        omega
      rw [if_neg hcell, if_pos hhigh]

/-- In sorted order, the values of earlier buckets come before a value, and it is met with
those of its own. -/
theorem below_sorted {before after : List ℕ} {v : ℕ}
    (hs : (before ++ v :: after).Pairwise (· ≤ ·)) :
    below (before ++ v :: after) (bucket v) ≤ before.length ∧
      before.length < below (before ++ v :: after) (bucket v + 1) := by
  rw [List.pairwise_append, List.pairwise_cons] at hs
  obtain ⟨-, ⟨hafter, -⟩, hbefore⟩ := hs
  rw [below, below, List.countP_append, List.countP_append]
  constructor
  · have hzero : (v :: after).countP (fun w => bucket w < bucket v) = 0 := by
      rw [List.countP_eq_zero]
      intro w hw
      rw [decide_eq_true_eq, not_lt]
      rcases List.mem_cons.mp hw with rfl | hw
      · exact le_rfl
      · exact bucket_mono (hafter w hw)
    rw [hzero, Nat.add_zero]
    exact List.countP_le_length
  · have hall : before.countP (fun w => bucket w < bucket v + 1) = before.length := by
      rw [List.countP_eq_length]
      intro w hw
      rw [decide_eq_true_eq]
      exact Nat.lt_succ_of_le (bucket_mono (hbefore w hw v List.mem_cons_self))
    have hself : 0 < (v :: after).countP fun w => bucket w < bucket v + 1 :=
      List.countP_pos_iff.mpr ⟨v, List.mem_cons_self, decide_eq_true (Nat.lt_succ_self _)⟩
    rw [hall]
    omega

/-! ## Percentiles -/

/-- `percentile`, for any double. -/
def percentileAt (h : Histogram) (p : F64) : ℕ :=
  if h.count = 0 then 0
  else
    let rank := F64.mul (F64.div p (.ofInt 100)) (.ofInt h.count)
    h.walk (Nat.max rank.ceilU64 1) h.counts 0 0

theorem percentile_eq (h : Histogram) (p : ℤ) : h.percentile p = h.percentileAt (.ofInt p) := rfl

/-- A number above zero and at most a hundred. -/
structure Percent (p : F64) : Prop where
  positive : p.negative = false
  finite : p.isFinite = true
  above : 0 < F64.magValue p.mag
  atMost : F64.magValue p.mag ≤ 100

/-- The rank of the percentile among `n` values. -/
def rankOf (p : F64) (n : ℕ) : ℕ := ⌈F64.magValue p.mag * n / 100⌉₊

/-- The count fits its word, and the rank comes out of the doubles as it is. -/
def RankExact (p : F64) (n : ℕ) : Prop :=
  n < 2 ^ 64 ∧ Nat.max (F64.mul (F64.div p (.ofInt 100)) (.ofInt n)).ceilU64 1 = rankOf p n

theorem Percent.rank {p : F64} (hp : Percent p) {n : ℕ} (hn : 0 < n) :
    0 < rankOf p n ∧ rankOf p n ≤ n := by
  have hn' : (0 : ℚ) < n := Nat.cast_pos.mpr hn
  constructor
  · rw [rankOf, Nat.ceil_pos]
    have := hp.above
    positivity
  · rw [rankOf, Nat.ceil_le, div_le_iff₀ (by norm_num), mul_comm]
    exact mul_le_mul_of_nonneg_left hp.atMost hn'.le

theorem Holds.percentile {h : Histogram} {values before after : List ℕ} {v : ℕ} {p : F64}
    (hh : Holds h values) (hexact : RankExact p values.length)
    (hperm : (before ++ v :: after).Perm values)
    (hs : (before ++ v :: after).Pairwise (· ≤ ·))
    (hrank : rankOf p values.length = before.length + 1) :
    h.percentileAt p = Nat.max (valueAt (bucket v)) h.min := by
  have hbelow : ∀ i, below (before ++ v :: after) i = below values i := fun i => hperm.countP_eq _
  have hv : bucket v < buckets := bucket_lt (hh.word v (hperm.mem_iff.mp (by simp)))
  have hcount : h.count ≠ 0 := by
    rw [hh.count, ← hperm.length_eq, List.length_append, List.length_cons]
    omega
  obtain ⟨hlow, hhigh⟩ := below_sorted hs
  rw [hbelow] at hlow hhigh
  have hstart : below values 0 = 0 := List.countP_eq_zero.mpr fun w _ => by simp
  have hwalk : h.walk (rankOf p values.length) ((List.range' 0 buckets).map (cell values)) 0
      (below values 0) = Nat.max (valueAt (bucket v)) h.min :=
    walk_eq h (by omega) (by omega) (Nat.zero_le _) (by omega)
  rw [hstart, ← List.range_eq_range', ← hh.counts] at hwalk
  rw [percentileAt, if_neg hcount, hh.count]
  dsimp only
  rw [hexact.2]
  exact hwalk

/-- Percentiles are within a sixteenth of the value of their rank, in whatever histograms
the values were recorded. -/
theorem percentile_within_bound :
    (∀ v w, v ≤ w → bucket v ≤ bucket w) ∧
    (∀ v, v < 2 ^ 64 → bucket v < buckets ∧ valueAt (bucket v) ≤ v ∧
      (sub ≤ v → subBits ≤ v.log2 ∧ v.log2 < 64 ∧ sub ≤ v / 2 ^ (v.log2 - subBits))) ∧
    (∀ i, i < buckets → sub ≤ i →
      1 ≤ i / sub ∧ i / sub - 1 < 64 ∧ (sub + i % sub) * 2 ^ (i / sub - 1) < 2 ^ 64) ∧
    ∀ (h : Histogram) (values sorted : List ℕ) (p : F64), Recorded h values → values ≠ [] →
      Percent p → RankExact p values.length → sorted.Perm values → sorted.Pairwise (· ≤ ·) →
        ∃ v least, sorted[rankOf p values.length - 1]? = some v ∧ sorted.head? = some least ∧
          h.percentileAt p ≤ v ∧ 15 * v ≤ 16 * h.percentileAt p ∧ least ≤ h.percentileAt p := by
  refine ⟨fun v w => bucket_mono, fun v hv => ⟨bucket_lt hv, (valueAt_near v).1, fun hsub => ?_⟩,
    fun i hi => valueAt_word hi, ?_⟩
  · have hne : v ≠ 0 := by rintro rfl; cases hsub
    exact ⟨octave hsub, (Nat.log2_lt hne).mpr hv, (shifted hsub).1⟩
  intro h values sorted p hrecorded hvalues hp hexact hperm hs
  have hh := hrecorded.holds
  obtain ⟨hpos, hle⟩ := hp.rank (List.length_pos_of_ne_nil hvalues)
  have hlt : rankOf p values.length - 1 < sorted.length := by
    rw [hperm.length_eq]
    omega
  obtain ⟨before, v, after, rfl, hbefore⟩ : ∃ before v after, sorted = before ++ v :: after ∧
      before.length = rankOf p values.length - 1 := by
    refine ⟨sorted.take (rankOf p values.length - 1), sorted[rankOf p values.length - 1],
      sorted.drop (rankOf p values.length - 1 + 1), ?_, List.length_take_of_le hlt.le⟩
    rw [← List.drop_eq_getElem_cons hlt, List.take_append_drop]
  have hpercentile := hh.percentile hexact hperm hs (by omega)
  have hnear := valueAt_near v
  have hmin : h.min ≤ v := hh.least v (hperm.mem_iff.mp (by simp))
  obtain ⟨least, more, hsorted⟩ : ∃ least more, before ++ v :: after = least :: more := by
    cases before with
    | nil => exact ⟨v, after, rfl⟩
    | cons w before => exact ⟨w, before ++ v :: after, rfl⟩
  refine ⟨v, least, ?_, by rw [hsorted]; rfl, ?_, ?_, ?_⟩
  · rw [← hbefore, List.getElem?_append_right le_rfl, Nat.sub_self]
    rfl
  · rw [hpercentile]
    exact max_le hnear.1 hmin
  · rw [hpercentile]
    exact hnear.2.trans (Nat.mul_le_mul_left _ (le_max_left _ _))
  · rw [hpercentile]
    refine le_trans ?_ (le_max_right _ _)
    rw [hsorted] at hperm hs
    have hleast : ∀ w ∈ values, least ≤ w := by
      intro w hw
      rcases List.mem_cons.mp (hperm.mem_iff.mpr hw) with rfl | hw
      · exact le_rfl
      · exact (List.pairwise_cons.mp hs).1 w hw
    rcases hh.attained with htop | hmem
    · have := hh.word least (hperm.mem_iff.mp List.mem_cons_self)
      omega
    · exact hleast _ hmem

theorem fifty : F64.magValue (F64.ofInt 50).mag = 50 := by
  have hmag : (F64.ofInt 50).mag = F64.roundMag 50 1 := by decide
  rw [hmag, F64.magValue_roundMag (by decide) (by decide) (by decide)]
  rfl

theorem rank_of_three : Percent (.ofInt 50) ∧ RankExact (.ofInt 50) 3 := by
  have hrank : rankOf (.ofInt 50) 3 = 2 := by
    rw [rankOf, fifty, Nat.ceil_eq_iff (by decide)]
    norm_num
  refine ⟨⟨by decide, by decide, ?_, ?_⟩, by decide, ?_⟩
  · rw [fifty]
    norm_num
  · rw [fifty]
    norm_num
  · rw [hrank]
    decide +kernel

theorem percentile_of_three :
    ∃ v least, [5, 6, 1000][rankOf (.ofInt 50) 3 - 1]? = some v ∧ [5, 6, 1000].head? = some least ∧
      (((new.record 5).record 1000).merge (new.record 6)).percentileAt (.ofInt 50) ≤ v ∧
        15 * v ≤ 16 * (((new.record 5).record 1000).merge (new.record 6)).percentileAt (.ofInt 50) ∧
          least ≤ (((new.record 5).record 1000).merge (new.record 6)).percentileAt (.ofInt 50) :=
  percentile_within_bound.2.2.2 _ [1000, 5, 6] [5, 6, 1000] _
    (.merge (.record (by decide) (.record (by decide) .new)) (.record (by decide) .new))
    (by decide) rank_of_three.1 rank_of_three.2 (by decide) (by decide)

end Histogram
end Adabt.Telemetry
