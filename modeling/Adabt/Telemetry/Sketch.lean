import Adabt.Core.Error
import Adabt.Library.Fallible
import Mathlib.Data.List.FinRange
import Mathlib.Logic.Function.Basic

/-! # Temperature

A count-min sketch counts a key in one slot of every row, and what it says of the key is
the least of the slots. Keys share slots, so the slots count at least what each of them
would count alone, and halving and merging keep that. -/

set_option autoImplicit false

namespace Adabt.Telemetry
open Adabt.Core Adabt.Library

/-- Independent hash seeds. One per row of the sketch. -/
def seeds : List UInt64 :=
  [0x9E3779B97F4A7C15, 0xBF58476D1CE4E5B9, 0x94D049BB133111EB, 0xC2B2AE3D27D4EB4F]

abbrev SketchRow := Fin seeds.length

/-- `u32::MAX`. -/
def maxCount : ℕ := 2 ^ 32 - 1

/-- `saturating_add` on `u32`. -/
def addSaturating (a b : ℕ) : ℕ := min (a + b) maxCount

structure TemperatureSketch where
  width : ℕ
  counts : List ℕ
  observations : ℕ
  decayInterval : ℕ
  decays : ℕ
  powerOfTwo : width.isPowerOfTwo
  intervalPos : 0 < decayInterval
  length : counts.length = width * seeds.length

namespace TemperatureSketch

/-- The two proofs are what the assertions check. -/
def new (width decayInterval : ℕ) (hw : width.isPowerOfTwo) (hi : 0 < decayInterval) :
    TemperatureSketch where
  width := width
  counts := List.replicate (width * seeds.length) 0
  observations := 0
  decayInterval := decayInterval
  decays := 0
  powerOfTwo := hw
  intervalPos := hi
  length := List.length_replicate

def mix (key : UInt64) (row : SketchRow) : UInt64 :=
  let h := key ^^^ seeds.get row
  let h := (h ^^^ (h >>> 30)) * 0xBF58476D1CE4E5B9
  let h := (h ^^^ (h >>> 27)) * 0x94D049BB133111EB
  h ^^^ (h >>> 31)

def slot (s : TemperatureSketch) (key : UInt64) (row : SketchRow) : ℕ :=
  row * s.width + ((mix key row).toNat &&& (s.width - 1))

theorem slot_lt (s : TemperatureSketch) (key : UInt64) (row : SketchRow) :
    s.slot key row < s.counts.length := by
  have hpos : 0 < s.width := Nat.pos_of_isPowerOfTwo s.powerOfTwo
  have hand : (mix key row).toNat &&& (s.width - 1) ≤ s.width - 1 := Nat.and_le_right
  have hrow : (row + 1) * s.width ≤ seeds.length * s.width := Nat.mul_le_mul_right _ row.isLt
  rw [s.length, mul_comm, slot]
  rw [Nat.succ_mul] at hrow
  omega

section Updates

variable (s : TemperatureSketch) (counts : List ℕ) (h : counts.length = s.counts.length) (n : ℕ)

def withCounts : TemperatureSketch := { s with counts := counts, length := h.trans s.length }

def withObservations : TemperatureSketch := { s with observations := n }

def withDecays : TemperatureSketch := { s with decays := n }

/-- New counters and a new number of observations leave the rest. -/
theorem counted_fields : ((s.withCounts counts h).withObservations n).width = s.width ∧
    ((s.withCounts counts h).withObservations n).counts = counts ∧
      ((s.withCounts counts h).withObservations n).decays = s.decays := ⟨rfl, rfl, rfl⟩

theorem decayed_fields : ((s.withCounts counts h).withDecays n).width = s.width ∧
    ((s.withCounts counts h).withDecays n).counts = counts ∧
      ((s.withCounts counts h).withDecays n).decays = n := ⟨rfl, rfl, rfl⟩

end Updates

/-- The counters after one more of a key. -/
def bumped (s : TemperatureSketch) (key : UInt64) : List ℕ :=
  (List.finRange seeds.length).foldl
    (fun counts row => counts.modify (s.slot key row) (addSaturating · 1)) s.counts

theorem length_bumped (s : TemperatureSketch) (key : UInt64) :
    (s.bumped key).length = s.counts.length := by
  rw [bumped]
  generalize s.counts = counts
  induction List.finRange seeds.length generalizing counts with
  | nil => rfl
  | cons row rows ih => rw [List.foldl_cons, ih, List.length_modify]

/-- Halve every counter. -/
def decay (b : Build) (s : TemperatureSketch) : Except Fault TemperatureSketch := do
  let decays ← b.word "add" (s.decays + 1)
  return (s.withCounts (s.counts.map (· / 2)) (List.length_map _)).withDecays decays

/-- One more of a key, before the decay that may be due. -/
def counted (b : Build) (s : TemperatureSketch) (key : UInt64) :
    Except Fault TemperatureSketch := do
  let observations ← b.word "add" (s.observations + 1)
  return (s.withCounts (s.bumped key) (s.length_bumped key)).withObservations observations

def observe (b : Build) (s : TemperatureSketch) (key : UInt64) :
    Except Fault TemperatureSketch := do
  let s ← s.counted b key
  if s.observations % s.decayInterval = 0 then s.decay b else return s

/-- The least of the key's counters. -/
def estimate (s : TemperatureSketch) (key : UInt64) : ℕ :=
  ((List.finRange seeds.length).map fun row =>
    s.counts.get ⟨s.slot key row, s.slot_lt key row⟩).min?.getD 0

theorem length_merged {s other : TemperatureSketch} (h : s.width = other.width) :
    (List.zipWith addSaturating s.counts other.counts).length = s.counts.length := by
  rw [List.length_zipWith, s.length, other.length, h, Nat.min_self]

def merge (b : Build) (s other : TemperatureSketch) : Except Fault TemperatureSketch :=
  if h : s.width = other.width then do
    let observations ← b.word "add" (s.observations + other.observations)
    let counts := List.zipWith addSaturating s.counts other.counts
    return (s.withCounts counts (length_merged h)).withObservations observations
  else return s

end TemperatureSketch

/-! ## Sketches beside exact counters -/

section Runs

variable {ι : Type} [DecidableEq ι]

/-- What is done to one of several sketches. -/
inductive SketchOp (ι : Type) where
  | observe (i : ι) (key : UInt64)
  | decay (i : ι)
  | merge (i other : ι)

abbrev Sketches (ι : Type) := ι → TemperatureSketch

/-- An exact counter for every key, beside each of the sketches. -/
abbrev ExactCounts (ι : Type) := ι → UInt64 → ℕ

def sketchStep (b : Build) (s : Sketches ι) : SketchOp ι → Except Fault (Sketches ι)
  | .observe i key => return Function.update s i (← (s i).observe b key)
  | .decay i => return Function.update s i (← (s i).decay b)
  | .merge i other => return Function.update s i (← (s i).merge b (s other))

def halved (e : UInt64 → ℕ) : UInt64 → ℕ := fun key => e key / 2

/-- The same on the exact counters, halved whenever the sketch decayed. -/
def exactStep (s t : Sketches ι) (e : ExactCounts ι) : SketchOp ι → ExactCounts ι
  | .observe i key =>
    let more := Function.update (e i) key (e i key + 1)
    Function.update e i (if (t i).decays = (s i).decays then more else halved more)
  | .decay i => Function.update e i (halved (e i))
  | .merge i other => Function.update e i fun key => e i key + e other key

def sketchRun (b : Build) : List (SketchOp ι) → Sketches ι × ExactCounts ι →
    Except Fault (Sketches ι × ExactCounts ι)
  | [], p => .ok p
  | op :: ops, p => do
    let t ← sketchStep b p.1 op
    sketchRun b ops (t, exactStep p.1 t p.2 op)

/-- No counter is at `u32::MAX`. -/
def Unsaturated (s : Sketches ι) : Prop := ∀ i, ∀ c ∈ (s i).counts, c < maxCount

end Runs

/-! ## What one operation keeps -/

/-- The counter at `j` is at `m` or above. -/
def AtLeast (m j : ℕ) (counts : List ℕ) : Prop := ∀ c, counts[j]? = some c → m ≤ c

/-- Every slot of a key counts what the key's own counter does, at least. -/
def Over (s : TemperatureSketch) (e : UInt64 → ℕ) : Prop :=
  ∀ key row, AtLeast (e key) (s.slot key row) s.counts

theorem AtLeast.bump {m j : ℕ} {counts : List ℕ} (h : AtLeast m j counts) (hm : m ≤ maxCount)
    (i : ℕ) : AtLeast m j (counts.modify i (addSaturating · 1)) := by
  intro c hc
  rw [List.getElem?_modify] at hc
  obtain ⟨d, hd, rfl⟩ := Option.map_eq_some_iff.mp hc
  have hle := h d hd
  split_ifs
  · exact le_min (hle.trans (Nat.le_succ d)) hm
  · exact hle

theorem AtLeast.bump_self {m j : ℕ} {counts : List ℕ} (h : AtLeast m j counts)
    (hm : m < maxCount) : AtLeast (m + 1) j (counts.modify j (addSaturating · 1)) := by
  intro c hc
  rw [List.getElem?_modify] at hc
  obtain ⟨d, hd, rfl⟩ := Option.map_eq_some_iff.mp hc
  rw [if_pos rfl]
  exact le_min (Nat.succ_le_succ (h d hd)) hm

section Bumps

variable {slot : SketchRow → ℕ} {m j : ℕ} {rows : List SketchRow} {counts : List ℕ}

theorem AtLeast.bumps (h : AtLeast m j counts) (hm : m ≤ maxCount) :
    AtLeast m j
      (rows.foldl (fun counts row => counts.modify (slot row) (addSaturating · 1)) counts) := by
  induction rows generalizing counts with
  | nil => exact h
  | cons row rows ih => exact ih (h.bump hm _)

/-- The slots of a key have more than before, also where another row counts in one. -/
theorem AtLeast.bumps_self {row : SketchRow} (h : AtLeast m (slot row) counts) (hm : m < maxCount)
    (hrow : row ∈ rows) :
    AtLeast (m + 1) (slot row)
      (rows.foldl (fun counts row => counts.modify (slot row) (addSaturating · 1)) counts) := by
  induction rows generalizing counts with
  | nil => cases hrow
  | cons first rows ih =>
    rcases List.mem_cons.mp hrow with rfl | hrow
    · exact (h.bump_self hm).bumps hm
    · exact ih (h.bump hm.le _) hrow

end Bumps

section Steps

variable {b : Build} {s t other : TemperatureSketch} {e f : UInt64 → ℕ}

theorem Over.lt (h : Over s e) (hs : ∀ c ∈ s.counts, c < maxCount) (key : UInt64) :
    e key < maxCount := by
  have hget := List.getElem?_eq_getElem (s.slot_lt key ⟨0, by decide⟩)
  exact (h key _ _ hget).trans_lt (hs _ (List.getElem_mem _))

theorem Over.bumped (h : Over s e) (hs : ∀ c ∈ s.counts, c < maxCount) (key : UInt64)
    (hwidth : t.width = s.width) (hcounts : t.counts = s.bumped key) :
    Over t (Function.update e key (e key + 1)) := by
  intro k row
  have hslot : t.slot k row = s.slot k row := by
    rw [TemperatureSketch.slot, TemperatureSketch.slot, hwidth]
  rw [hcounts, hslot, TemperatureSketch.bumped]
  by_cases hk : k = key
  · rw [hk, Function.update_self]
    exact (h key row).bumps_self (h.lt hs key) (List.mem_finRange row)
  · rw [Function.update_of_ne hk]
    exact (h k row).bumps (h.lt hs k).le

theorem Over.halved (h : Over s e) (hwidth : t.width = s.width)
    (hcounts : t.counts = s.counts.map (· / 2)) : Over t (halved e) := by
  intro key row c hc
  have hslot : t.slot key row = s.slot key row := by
    rw [TemperatureSketch.slot, TemperatureSketch.slot, hwidth]
  rw [hcounts, hslot, List.getElem?_map] at hc
  obtain ⟨d, hd, rfl⟩ := Option.map_eq_some_iff.mp hc
  exact Nat.div_le_div_right (h key row d hd)

theorem Over.merged (h : Over s e) (ho : Over other f) (hsame : s.width = other.width)
    (ht : ∀ c ∈ t.counts, c < maxCount) (hwidth : t.width = s.width)
    (hcounts : t.counts = List.zipWith addSaturating s.counts other.counts) :
    Over t fun key => e key + f key := by
  intro key row c hc
  have hmax := ht c (List.mem_of_getElem? hc)
  have hslot : t.slot key row = s.slot key row := by
    rw [TemperatureSketch.slot, TemperatureSketch.slot, hwidth]
  have hslot' : other.slot key row = s.slot key row := by
    rw [TemperatureSketch.slot, TemperatureSketch.slot, hsame]
  rw [hcounts, hslot, List.getElem?_zipWith_eq_some] at hc
  obtain ⟨x, y, hx, hy, rfl⟩ := hc
  have hxle := h key row x hx
  have hyle := ho key row y (hslot' ▸ hy)
  rw [addSaturating] at hmax ⊢
  show e key + f key ≤ min (x + y) maxCount
  omega

theorem word_succ_ne {b : Build} {what : String} {n m : ℕ} (h : b.word what (n + 1) = .ok m) :
    m ≠ n := by
  unfold Build.word at h
  split_ifs at h with hfits
  · cases h
    omega
  · cases b with
    | checked => cases h
    | release =>
      cases h
      have hlt : (n + 1) % 2 ^ 64 < 2 ^ 64 := Nat.mod_lt _ (by decide)
      rcases Nat.lt_or_ge (n + 1) (2 ^ 64 + 1) with hle | hlt'
      · have heq : n + 1 = 2 ^ 64 := by omega
        rw [heq, Nat.mod_self]
        omega
      · omega

theorem decay_spec (h : s.decay b = .ok t) :
    t.width = s.width ∧ t.counts = s.counts.map (· / 2) ∧ t.decays ≠ s.decays := by
  obtain ⟨decays, hdecays, ht⟩ := bind_eq_ok.mp h
  obtain rfl := Except.ok.inj ht
  obtain ⟨hwidth, hcounts, hnow⟩ := s.decayed_fields _ (List.length_map _) decays
  exact ⟨hwidth, hcounts, hnow ▸ word_succ_ne hdecays⟩

theorem counted_spec {key : UInt64} (h : s.counted b key = .ok t) :
    t.width = s.width ∧ t.counts = s.bumped key ∧ t.decays = s.decays := by
  obtain ⟨observations, -, ht⟩ := bind_eq_ok.mp h
  obtain rfl := Except.ok.inj ht
  exact s.counted_fields (s.bumped key) (s.length_bumped key) observations

theorem observe_spec {key : UInt64} (h : Over s e) (hs : ∀ c ∈ s.counts, c < maxCount)
    (ht : s.observe b key = .ok t) :
    t.width = s.width ∧
      Over t (if t.decays = s.decays then Function.update e key (e key + 1)
        else halved (Function.update e key (e key + 1))) := by
  obtain ⟨u, hu, ht⟩ := bind_eq_ok.mp ht
  obtain ⟨hwidth, hcounts, hdecays⟩ := counted_spec hu
  have hover := h.bumped hs key hwidth hcounts
  split_ifs at ht with hdue
  · obtain ⟨hwidth', hcounts', hdecays'⟩ := decay_spec ht
    rw [if_neg (hdecays ▸ hdecays')]
    exact ⟨hwidth'.trans hwidth, hover.halved hwidth' hcounts'⟩
  · obtain rfl := Except.ok.inj ht
    rw [if_pos hdecays]
    exact ⟨hwidth, hover⟩

theorem merge_spec (hsame : s.width = other.width) (ht : s.merge b other = .ok t) :
    t.width = s.width ∧ t.counts = List.zipWith addSaturating s.counts other.counts := by
  rw [TemperatureSketch.merge, dif_pos hsame] at ht
  obtain ⟨observations, -, ht⟩ := bind_eq_ok.mp ht
  obtain rfl := Except.ok.inj ht
  obtain ⟨hwidth, hcounts, -⟩ :=
    s.counted_fields _ (TemperatureSketch.length_merged hsame) observations
  exact ⟨hwidth, hcounts⟩

theorem Over.estimate (h : Over s e) (key : UInt64) : e key ≤ s.estimate key := by
  rw [TemperatureSketch.estimate]
  cases hmin : ((List.finRange seeds.length).map fun row =>
      s.counts.get ⟨s.slot key row, s.slot_lt key row⟩).min? with
  | none => cases List.min?_eq_none_iff.mp hmin
  | some c =>
    obtain ⟨row, -, rfl⟩ := List.mem_map.mp (List.min?_mem hmin)
    exact h key row _ (List.getElem?_eq_getElem (s.slot_lt key row))

end Steps

/-! ## Builds that wrap -/

section Release

theorem word_release (what : String) (n : ℕ) : ∃ m, Build.release.word what n = .ok m := by
  unfold Build.word
  split_ifs
  · exact ⟨n, rfl⟩
  · exact ⟨n % 2 ^ 64, rfl⟩

theorem decay_release (s : TemperatureSketch) : ∃ t, s.decay .release = .ok t := by
  obtain ⟨decays, hdecays⟩ := word_release "add" (s.decays + 1)
  exact ⟨_, bind_eq_ok.mpr ⟨decays, hdecays, rfl⟩⟩

theorem observe_release (s : TemperatureSketch) (key : UInt64) :
    ∃ t, s.observe .release key = .ok t := by
  obtain ⟨observations, hobservations⟩ := word_release "add" (s.observations + 1)
  obtain ⟨u, hu⟩ : ∃ u, s.counted .release key = .ok u :=
    ⟨_, bind_eq_ok.mpr ⟨observations, hobservations, rfl⟩⟩
  rw [TemperatureSketch.observe, hu, ok_bind]
  split_ifs
  · exact decay_release u
  · exact ⟨u, rfl⟩

theorem merge_release (s other : TemperatureSketch) : ∃ t, s.merge .release other = .ok t := by
  rw [TemperatureSketch.merge]
  split_ifs with h
  · obtain ⟨observations, hobservations⟩ :=
      word_release "add" (s.observations + other.observations)
    exact ⟨_, bind_eq_ok.mpr ⟨observations, hobservations, rfl⟩⟩
  · exact ⟨s, rfl⟩

end Release

/-! ## Runs -/

section Runs

variable {ι : Type} [DecidableEq ι] {b : Build} {s t : Sketches ι} {e : ExactCounts ι} {width : ℕ}

/-- Every sketch is as wide as the others and counts what its exact counter does, at least. -/
structure OverAll (width : ℕ) (s : Sketches ι) (e : ExactCounts ι) : Prop where
  width : ∀ i, (s i).width = width
  above : ∀ i, Over (s i) (e i)

/-- A change of one sketch and of its counter. -/
theorem OverAll.update (h : OverAll width s e) (i : ι) {u : TemperatureSketch}
    {f : UInt64 → ℕ} (hwidth : u.width = (s i).width) (hover : Over u f) :
    OverAll width (Function.update s i u) (Function.update e i f) := by
  constructor
  · intro j
    by_cases hj : j = i
    · rw [hj, Function.update_self, hwidth, h.width]
    · rw [Function.update_of_ne hj, h.width]
  · intro j
    by_cases hj : j = i
    · rwa [hj, Function.update_self, Function.update_self]
    · rw [Function.update_of_ne hj, Function.update_of_ne hj]
      exact h.above j

theorem OverAll.step {op : SketchOp ι} (h : OverAll width s e) (hs : Unsaturated s)
    (hstep : sketchStep b s op = .ok t) (ht : Unsaturated t) :
    OverAll width t (exactStep s t e op) := by
  cases op with
  | observe i key =>
    obtain ⟨u, hu, ht⟩ := bind_eq_ok.mp hstep
    obtain rfl := Except.ok.inj ht
    obtain ⟨hwidth, hover⟩ := observe_spec (h.above i) (hs i) hu
    rw [exactStep, Function.update_self]
    exact h.update i hwidth hover
  | decay i =>
    obtain ⟨u, hu, ht⟩ := bind_eq_ok.mp hstep
    obtain rfl := Except.ok.inj ht
    obtain ⟨hwidth, hcounts, -⟩ := decay_spec hu
    exact h.update i hwidth ((h.above i).halved hwidth hcounts)
  | merge i other =>
    obtain ⟨u, hu, hsame⟩ := bind_eq_ok.mp hstep
    obtain rfl := Except.ok.inj hsame
    have hequal : (s i).width = (s other).width := by rw [h.width, h.width]
    obtain ⟨hwidth, hcounts⟩ := merge_spec hequal hu
    have hmax := ht i
    rw [Function.update_self] at hmax
    exact h.update i hwidth ((h.above i).merged (h.above other) hequal hmax hwidth hcounts)

theorem OverAll.run {ops : List (SketchOp ι)} {p q : Sketches ι × ExactCounts ι}
    (h : OverAll width p.1 p.2) (hrun : sketchRun b ops p = .ok q)
    (hmax : ∀ before r, before <+: ops → sketchRun b before p = .ok r → Unsaturated r.1) :
    OverAll width q.1 q.2 := by
  induction ops generalizing p with
  | nil =>
    obtain rfl := Except.ok.inj hrun
    exact h
  | cons op ops ih =>
    obtain ⟨t, ht, hrest⟩ := bind_eq_ok.mp hrun
    have hnow : Unsaturated p.1 := hmax [] p (List.nil_prefix) rfl
    have hnext : Unsaturated t := by
      refine hmax [op] (t, exactStep p.1 t p.2 op) (List.prefix_append [op] ops) ?_
      rw [sketchRun, ht]
      rfl
    refine ih (h.step hnow ht hnext) hrest fun before r hbefore hr => ?_
    refine hmax (op :: before) r (List.cons_prefix_cons.mpr ⟨rfl, hbefore⟩) ?_
    rw [sketchRun, ht]
    exact hr

theorem sketchStep_release (s : Sketches ι) (op : SketchOp ι) :
    ∃ t, sketchStep .release s op = .ok t := by
  cases op with
  | observe i key =>
    obtain ⟨t, ht⟩ := observe_release (s i) key
    exact ⟨_, bind_eq_ok.mpr ⟨t, ht, rfl⟩⟩
  | decay i =>
    obtain ⟨t, ht⟩ := decay_release (s i)
    exact ⟨_, bind_eq_ok.mpr ⟨t, ht, rfl⟩⟩
  | merge i other =>
    obtain ⟨t, ht⟩ := merge_release (s i) (s other)
    exact ⟨_, bind_eq_ok.mpr ⟨t, ht, rfl⟩⟩

theorem sketchRun_release (ops : List (SketchOp ι)) (p : Sketches ι × ExactCounts ι) :
    ∃ q, sketchRun .release ops p = .ok q := by
  induction ops generalizing p with
  | nil => exact ⟨p, rfl⟩
  | cons op ops ih =>
    obtain ⟨t, ht⟩ := sketchStep_release p.1 op
    obtain ⟨q, hq⟩ := ih (t, exactStep p.1 t p.2 op)
    exact ⟨q, bind_eq_ok.mpr ⟨t, ht, hq⟩⟩

/-- Fresh sketches of one width, and counters at zero. -/
def freshSketches (width : ℕ) (hw : width.isPowerOfTwo) (interval : ι → ℕ)
    (hi : ∀ i, 0 < interval i) : Sketches ι × ExactCounts ι :=
  (fun i => .new width (interval i) hw (hi i), fun _ _ => 0)

end Runs

end Adabt.Telemetry
