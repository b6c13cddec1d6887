import Adabt.Library.Fading
import Adabt.Telemetry.Collector
import Mathlib.Algebra.BigOperators.Fin

/-! # What telemetry forgets

Each count of a probe is a fading counter whose cells are the shards. A snapshot
shows their sum. -/

set_option autoImplicit false

namespace Adabt.Telemetry
open Adabt.Core Adabt.Library

/-! ## One shard -/

theorem add_le (a b : ℕ) : add a b ≤ a + b := Nat.mod_le _ _

theorem add_eq {a b : ℕ} (h : a + b < 2 ^ 64) : add a b = a + b := Nat.mod_eq_of_lt h

theorem Added.le {a b r : ℕ} (h : Added a b r) : r ≤ a + b := by
  rcases h with ⟨-, rfl⟩ | rfl
  · exact Nat.le_add_right _ _
  · exact add_le a b

theorem Added.eq {a b r : ℕ} (h : Added a b r) (hsum : a + b < 2 ^ 64) : r = a + b := by
  rcases h with ⟨rfl, rfl⟩ | rfl
  · rfl
  · exact add_eq hsum

namespace Shard

/-- Recording an event adds one to the counts it is recorded for. -/
theorem count_record (g : Shard) (ev : Event) (c : Counter) :
    Counts.count (g.record ev) c = if c ∈ ev.counters then add (g.count c) 1 else g.count c := by
  cases ev with
  | op collection kind shape nanos rows =>
    have hop : ∀ k, (((g.perOp.alter kind .new fun e => ⟨add e.calls 1, add e.rows rows,
        e.latency.record nanos⟩).get k).map (·.calls)).getD 0 = if k = kind then
          add (((g.perOp.get k).map (·.calls)).getD 0) 1 else ((g.perOp.get k).map (·.calls)).getD 0 :=
      fun k => number_alter rfl fun _ => rfl
    have hshape : ∀ s, (((g.perShape.alter shape .new fun s => ⟨add s.calls 1, add s.rows rows,
        add s.totalNanos nanos, s.latency.record nanos⟩).get s).map (·.calls)).getD 0 =
          if s = shape then add (((g.perShape.get s).map (·.calls)).getD 0) 1
          else ((g.perShape.get s).map (·.calls)).getD 0 :=
      fun s => number_alter rfl fun _ => rfl
    by_cases hreal : shape = QueryShape.unknown
    · cases c <;> simp [record, Event.counters, Counts.count, hreal, hop]
    · cases c <;> simp [record, Event.counters, Counts.count, hreal, hop, hshape]
  | touch collection id => rfl
  | cacheProbe name hit => cases hit <;> cases c <;> simp [record, Event.counters, Counts.count]
  | indexUsed collection field => cases c <;> simp [record, Event.counters, Counts.count]
  | fieldFiltered collection field equality =>
    cases equality <;> cases c <;> simp [record, Event.counters, Counts.count]
  | fieldsPinnedTogether collection fields =>
    by_cases hmany : 1 < fields.length
    · cases c <;> simp [record, Event.counters, Counts.count, hmany]
    · simp [record, Event.counters, hmany]
  | fieldsProjectedTogether collection filtered fields equality =>
    cases hsome : !fields.isEmpty && !filtered.isEmpty
    · simp [record, Event.counters, hsome]
    · cases c <;> simp [record, Event.counters, Counts.count, hsome]
  | indexMaintained collection field => cases c <;> simp [record, Event.counters, Counts.count]
  | optChanged name enabled => rfl

theorem scale_zero (numerator denominator : ℕ) : scale numerator denominator 0 = 0 := by
  rw [scale, Nat.zero_mul, Nat.zero_mod, Nat.zero_div]

/-- A decay scales the counts that decay. -/
theorem count_decay (g : Shard) (n d : ℕ) (c : Counter) :
    Counts.count (g.decay n d) c = if c.decays then scale n d (g.count c) else g.count c := by
  cases c with
  | opCalls kind =>
    rw [if_pos (show Counter.decays (.opCalls kind) = true from rfl)]
    exact number_mapVal (scale_zero n d) fun _ => rfl
  | shapeCalls shape =>
    rw [if_pos (show Counter.decays (.shapeCalls shape) = true from rfl)]
    exact number_mapVal (scale_zero n d) fun _ => rfl
  | pinnedSets collection fields => rfl
  | projectedCovers collection filtered fields equality => rfl
  | cacheHits name => exact countOf_mapVal (scale_zero n d) _ _
  | cacheMisses name => exact countOf_mapVal (scale_zero n d) _ _
  | fieldFilters collection field => exact countOf_mapVal (scale_zero n d) _ _
  | equalityFilters collection field => exact countOf_mapVal (scale_zero n d) _ _
  | indexUsage collection field => exact countOf_mapVal (scale_zero n d) _ _
  | indexMaintenance collection field => exact countOf_mapVal (scale_zero n d) _ _

end Shard

theorem Snapshot.added_merge (out : Snapshot) (g : Shard) (c : Counter) :
    Added (out.count c) (g.count c) (Counts.count (out.merge g) c) := by
  cases c with
  | opCalls kind => exact Telemetry.added_merge rfl fun _ _ => rfl
  | shapeCalls shape => exact Telemetry.added_merge rfl fun _ _ => rfl
  | _ => exact added_addUp _ _ _

/-- A snapshot shows the sum of the shards. -/
theorem count_foldl (shards : Fin shardCount → Shard) (c : Counter) (is : List (Fin shardCount))
    (out : Snapshot) :
    let sum := out.count c + (is.map fun i => (shards i).count c).sum
    let shown := Counts.count (is.foldl (fun out i => Snapshot.merge out (shards i)) out) c
    shown ≤ sum ∧ (sum < 2 ^ 64 → shown = sum) := by
  induction is generalizing out with
  | nil => exact ⟨le_rfl, fun _ => rfl⟩
  | cons i is ih =>
    have hone := Snapshot.added_merge out (shards i) c
    have hle := hone.le
    obtain ⟨hrest, heq⟩ := ih (Snapshot.merge out (shards i))
    rw [List.foldl_cons, List.map_cons, List.sum_cons]
    constructor
    · omega
    · intro hsum
      have hexact := hone.eq (by omega)
      rw [heq (by omega)]
      omega

/-! ## Runs -/

inductive ProbeCall where
  | record (shard : Fin shardCount) (ev : Event)
  | decay

namespace ProbeCall

/-- What survives of the counts in each cycle of the optimizer. -/
def telemetryDecay : ℕ × ℕ := (3, 4)

def step (call : ProbeCall) (p : CollectingProbe) : CollectingProbe :=
  match call with
  | record shard ev => p.record shard ev
  | decay => p.decay telemetryDecay.1 telemetryDecay.2

/-- Whether a call records an event for a count. -/
def counts (call : ProbeCall) (c : Counter) : Bool :=
  match call with
  | record _ ev => c ∈ ev.counters
  | decay => false

def isDecay : ProbeCall → Bool
  | decay => true
  | record _ _ => false

/-- What a call is for the cells of one count. -/
def tick (c : Counter) (call : ProbeCall) : Tick (Fin shardCount) :=
  match call with
  | record shard ev => if c ∈ ev.counters then .bump shard else .idle
  | decay => if c.decays then .fade else .idle

end ProbeCall

open ProbeCall (step)

theorem scale_lt {v : ℕ} (h : 0 < v) : Shard.scale 3 4 v < v := by
  have hwrapped := Nat.mod_le (v * 3) (2 ^ 64)
  rw [Shard.scale, Nat.div_lt_iff_lt_mul (by decide)]
  omega

/-- The arithmetic of the counters. -/
def fading : Fading where
  add n := add n 1
  scale := Shard.scale 3 4
  add_le n := add_le n 1
  scale_zero := Shard.scale_zero 3 4
  scale_lt _ := scale_lt

/-- It is exact as long as three times a count fits. -/
theorem fading_exact : fading.Exact (2 ^ 64 / 3) where
  add_eq n hn := add_eq (by omega)
  mono m n hmn hn := by
    have hfit : ∀ k, k ≤ n → Shard.scale 3 4 k = k * 3 / 4 := by
      intro k hk
      rw [Shard.scale, Nat.mod_eq_of_lt (by omega)]
    change Shard.scale 3 4 m ≤ Shard.scale 3 4 n
    rw [hfit m hmn, hfit n le_rfl]
    exact Nat.div_le_div_right (Nat.mul_le_mul_right 3 hmn)

def cells (p : CollectingProbe) (c : Counter) : Fin shardCount → ℕ := fun i => (p.shards i).count c

theorem cells_step (c : Counter) (call : ProbeCall) (p : CollectingProbe) :
    cells (step call p) c = fading.tick (call.tick c) (cells p c) := by
  funext i
  cases call with
  | record shard ev =>
    rw [ProbeCall.tick]
    by_cases hi : i = shard
    · subst hi
      rw [cells, step, CollectingProbe.record]
      dsimp only
      rw [Function.update_self, Shard.count_record]
      split_ifs with hc
      · rw [Fading.tick, Function.update_self]
        rfl
      · rfl
    · rw [cells, step, CollectingProbe.record]
      dsimp only
      rw [Function.update_of_ne hi]
      split_ifs with hc
      · rw [Fading.tick, Function.update_of_ne hi]
        rfl
      · rfl
  | decay =>
    rw [ProbeCall.tick, cells, step, CollectingProbe.decay]
    dsimp only
    rw [Shard.count_decay]
    split_ifs with hc <;> rfl

/-- The cells of a count run as a fading counter. -/
theorem cells_run (c : Counter) (calls : List ProbeCall) (p : CollectingProbe) :
    cells (run step p calls) c = run fading.tick (cells p c) (calls.map (ProbeCall.tick c)) := by
  induction calls generalizing p with
  | nil => rfl
  | cons call calls ih => rw [run_cons, ih, cells_step, List.map_cons, run_cons]

theorem cells_new (c : Counter) : cells .new c = fun _ => 0 := by
  cases c <;> rfl

theorem snapshot_le (p : CollectingProbe) (c : Counter) : p.snapshot.count c ≤ ∑ i, cells p c i := by
  rw [Fin.sum_univ_def]
  have hle := (count_foldl p.shards c (List.finRange shardCount) .none).1
  have hzero : Counts.none.count c = 0 := congrFun (cells_new c) 0
  rwa [hzero, Nat.zero_add] at hle

theorem snapshot_eq {p : CollectingProbe} {c : Counter} (h : ∑ i, cells p c i < 2 ^ 64) :
    p.snapshot.count c = ∑ i, cells p c i := by
  rw [Fin.sum_univ_def] at h ⊢
  have heq := (count_foldl p.shards c (List.finRange shardCount) .none).2
  have hzero : Counts.none.count c = 0 := congrFun (cells_new c) 0
  rw [hzero, Nat.zero_add] at heq
  exact heq h

open Tick (isFade isBump)

theorem bumps_eq (c : Counter) (calls : List ProbeCall) :
    (calls.map (ProbeCall.tick c)).countP isBump = calls.countP (·.counts c) := by
  rw [List.countP_map]
  apply List.countP_congr
  intro call _
  cases call with
  | record shard ev =>
    by_cases hc : c ∈ ev.counters <;> simp [ProbeCall.tick, ProbeCall.counts, isBump, hc]
  | decay => cases hc : c.decays <;> simp [ProbeCall.tick, ProbeCall.counts, isBump, hc]

/-- The cells of a count add up to no more than its events. -/
theorem sum_cells_le (c : Counter) (calls : List ProbeCall) :
    ∑ i, cells (run step .new calls) c i ≤ calls.countP (·.counts c) := by
  have hle := fading.sum_run_le (fun _ : Fin shardCount => 0) (calls.map (ProbeCall.tick c))
  rwa [Finset.sum_const_zero, Nat.zero_add, ← cells_new c, ← cells_run, bumps_eq] at hle

/-- Every count fades to nothing once its events stop, no snapshot shows more of a count
than its events, nor more equality filters of a field than filters. -/
structure Forgets (calls : List ProbeCall) : Prop where
  fades : ∀ c : Counter, ∃ n, ∀ later : List ProbeCall, n ≤ later.countP ProbeCall.isDecay →
    (∀ call ∈ later, call.counts c = false) →
      (run step .new (calls ++ later)).snapshot.count c = 0
  bounded : ∀ before, before <+: calls → ∀ c : Counter,
    (run step .new before).snapshot.count c ≤ before.countP (·.counts c)
  equality : ∀ before, before <+: calls → ∀ collection field : String,
    (run step .new before).snapshot.count (.equalityFilters collection field) ≤
      (run step .new before).snapshot.count (.fieldFilters collection field)

/-- Decays with no event in between take a count they scale to zero. -/
theorem count_fades {c : Counter} (hc : c.decays = true) (calls : List ProbeCall) : ∃ n, ∀ later,
    n ≤ later.countP ProbeCall.isDecay → (∀ call ∈ later, call.counts c = false) →
      (run step .new (calls ++ later)).snapshot.count c = 0 := by
  refine ⟨∑ i, cells (run step .new calls) c i, fun later hlater hquiet => ?_⟩
  have hfades : (later.map (ProbeCall.tick c)).countP isFade = later.countP ProbeCall.isDecay := by
    rw [List.countP_map]
    apply List.countP_congr
    intro call _
    cases call with
    | record shard ev =>
      by_cases hmem : c ∈ ev.counters <;> simp [ProbeCall.tick, ProbeCall.isDecay, isFade, hmem]
    | decay => simp [ProbeCall.tick, ProbeCall.isDecay, isFade, hc]
  have hzero : ∀ i, cells (run step .new (calls ++ later)) c i = 0 := by
    intro i
    rw [run_append, cells_run]
    apply fading.run_eq_zero
    · have hnone : (later.map (ProbeCall.tick c)).countP isBump = 0 := by
        rw [bumps_eq, List.countP_eq_zero]
        exact fun call hcall => by simp [hquiet call hcall]
      rw [List.countP_eq_zero] at hnone
      exact fun t ht => by simpa using hnone t ht
    · intro j
      rw [hfades]
      exact (Finset.single_le_sum (fun k _ => Nat.zero_le _) (Finset.mem_univ j)).trans hlater
  have hle := snapshot_le (run step .new (calls ++ later)) c
  rw [Finset.sum_eq_zero fun i _ => hzero i] at hle
  exact Nat.le_zero.mp hle

theorem filters_of_equality {ev : Event} {collection field : String}
    (h : Counter.equalityFilters collection field ∈ ev.counters) :
    Counter.fieldFilters collection field ∈ ev.counters := by
  cases ev with
  | fieldFiltered c f equality => cases equality <;> simp_all [Event.counters]
  | op | cacheProbe | fieldsPinnedTogether | fieldsProjectedTogether =>
    rw [Event.counters] at h
    split_ifs at h <;> simp at h
  | touch | indexUsed | indexMaintained | optChanged => simp [Event.counters] at h

/-- A filter counted as an equality is counted as a filter. -/
theorem equality_among (collection field : String) (calls : List ProbeCall) : List.Forall₂ Fading.Among
    (calls.map (ProbeCall.tick (.equalityFilters collection field)))
    (calls.map (ProbeCall.tick (.fieldFilters collection field))) := by
  rw [List.forall₂_map_left_iff, List.forall₂_map_right_iff, List.forall₂_same]
  intro call _
  cases call with
  | decay => exact .fade
  | record shard ev =>
    rw [ProbeCall.tick, ProbeCall.tick]
    by_cases he : Counter.equalityFilters collection field ∈ ev.counters
    · rw [if_pos he, if_pos (filters_of_equality he)]
      exact .both shard
    · rw [if_neg he]
      split_ifs
      · exact .second shard
      · exact .idle

def ProbeCall.isRecord : ProbeCall → Bool
  | record _ _ => true
  | decay => false

theorem counts_le (c : Counter) (calls : List ProbeCall) :
    calls.countP (·.counts c) ≤ calls.countP ProbeCall.isRecord := by
  apply List.countP_mono_left
  intro call _ hc
  cases call with
  | record shard ev => rfl
  | decay => cases hc

theorem equality_le {calls : List ProbeCall} (hfew : calls.countP ProbeCall.isRecord < 2 ^ 64 / 3)
    (collection field : String) :
    (run step .new calls).snapshot.count (.equalityFilters collection field) ≤
      (run step .new calls).snapshot.count (.fieldFilters collection field) := by
  have hevents := counts_le (.fieldFilters collection field) calls
  have hcells : ∀ i, cells (run step .new calls) (.equalityFilters collection field) i ≤
      cells (run step .new calls) (.fieldFilters collection field) i := by
    intro i
    rw [cells_run, cells_run, cells_new, cells_new]
    apply fading_exact.run_le (equality_among collection field calls) _ fun _ => le_rfl
    intro j
    rw [bumps_eq]
    omega
  have htotal := sum_cells_le (.fieldFilters collection field) calls
  rw [snapshot_eq (c := .fieldFilters collection field) (by omega)]
  exact (snapshot_le _ _).trans (Finset.sum_le_sum fun i _ => hcells i)

theorem cells_le (c : Counter) (calls : List ProbeCall) (i : Fin shardCount) :
    cells (run step .new calls) c i ≤ calls.countP (·.counts c) :=
  (Finset.single_le_sum (fun j _ => Nat.zero_le (cells (run step .new calls) c j))
    (Finset.mem_univ i)).trans (sum_cells_le c calls)

/-- A count that no decay scales stays once an event is recorded for it. -/
theorem count_stays {c : Counter} (hc : c.decays = false) {calls later : List ProbeCall}
    (hfew : (calls ++ later).countP ProbeCall.isRecord < 2 ^ 64 / 3) {shard : Fin shardCount}
    {ev : Event} (hcall : .record shard ev ∈ calls) (hev : c ∈ ev.counters) :
    (run step .new (calls ++ later)).snapshot.count c ≠ 0 := by
  obtain ⟨before, after, rfl⟩ := List.append_of_mem hcall
  have hevents := (counts_le c (before ++ .record shard ev :: after ++ later)).trans_lt hfew
  have hcount : (before ++ .record shard ev :: (after ++ later)).countP (·.counts c) =
      before.countP (·.counts c) + ((after ++ later).countP (·.counts c) + 1) := by
    rw [List.countP_append]
    exact congrArg _ (List.countP_cons_of_pos (p := fun call : ProbeCall => call.counts c)
      (decide_eq_true hev))
  rw [List.append_assoc, List.cons_append, hcount] at hevents
  have hbefore := cells_le c before shard
  -- the event makes the cell of its shard positive
  have hpos : cells (step (.record shard ev) (run step .new before)) c shard =
      cells (run step .new before) c shard + 1 := by
    rw [cells_step, ProbeCall.tick, if_pos hev, Fading.tick, Function.update_self]
    exact fading_exact.add_eq _ (by omega)
  have hquiet : ∀ t ∈ (after ++ later).map (ProbeCall.tick c), isFade t = false := by
    intro t ht
    obtain ⟨call, -, rfl⟩ := List.mem_map.mp ht
    cases call with
    | record shard ev =>
      rw [ProbeCall.tick]
      split_ifs <;> rfl
    | decay => simp [ProbeCall.tick, hc, isFade]
  have hkept := fading_exact.le_run (i := shard)
    (c := cells (step (.record shard ev) (run step .new before)) c) hquiet (by
      rw [bumps_eq, hpos]
      omega)
  rw [← cells_run, ← run_cons, ← run_append] at hkept
  have hsum := (Finset.single_le_sum (fun j _ => Nat.zero_le (cells (run step .new
    (before ++ .record shard ev :: (after ++ later))) c j)) (Finset.mem_univ shard))
  have htotal := sum_cells_le c (before ++ .record shard ev :: (after ++ later))
  rw [hcount] at htotal
  rw [List.append_assoc, List.cons_append, snapshot_eq (by omega)]
  omega

/-- So it is never forgotten. -/
theorem not_forgets {c : Counter} (hc : c.decays = false) {calls : List ProbeCall}
    (hfew : calls.countP ProbeCall.isRecord < 2 ^ 64 / 3) {shard : Fin shardCount} {ev : Event}
    (hcall : .record shard ev ∈ calls) (hev : c ∈ ev.counters) : ¬ Forgets calls := by
  intro hforgets
  obtain ⟨n, hn⟩ := hforgets.fades c
  refine count_stays hc ?_ hcall hev (hn (List.replicate n .decay) ?_ ?_)
  · rwa [List.countP_append, List.countP_replicate]
  · rw [List.countP_replicate]
    exact le_rfl
  · intro l hl
    rw [List.eq_of_mem_replicate hl]
    rfl

/-- Telemetry forgets every count exactly where no event is recorded for a count that no
decay scales: no set of fields pinned together and no projection of a filtered field. -/
theorem forgets_iff {calls : List ProbeCall} (hfew : calls.countP ProbeCall.isRecord < 2 ^ 64 / 3) :
    Forgets calls ↔ ∀ call ∈ calls, ∀ c : Counter, c.decays = false → call.counts c = false := by
  constructor
  · intro hforgets call hcall c hc
    by_contra hcounts
    cases call with
    | decay => exact hcounts rfl
    | record shard ev =>
      exact not_forgets hc hfew hcall (by simpa [ProbeCall.counts] using hcounts) hforgets
  · intro hquiet
    have hbefore : ∀ before, before <+: calls → before.countP ProbeCall.isRecord < 2 ^ 64 / 3 :=
      fun before h => (h.sublist.countP_le).trans_lt hfew
    refine ⟨fun c => ?_, fun before _ c => (snapshot_le _ c).trans (sum_cells_le c before),
      fun before h collection field => equality_le (hbefore before h) collection field⟩
    cases hc : c.decays with
    | true => exact count_fades hc calls
    | false =>
      refine ⟨0, fun later _ hlater => ?_⟩
      have hnone : (calls ++ later).countP (·.counts c) = 0 := by
        rw [List.countP_eq_zero]
        intro call hcall
        rcases List.mem_append.mp hcall with hcall | hcall
        · simp [hquiet call hcall c hc]
        · simp [hlater call hcall]
      have hle := (snapshot_le (run step .new (calls ++ later)) c).trans (sum_cells_le c _)
      rw [hnone] at hle
      exact Nat.le_zero.mp hle

/-- A workload of filters and lookups. -/
def filtering : List ProbeCall :=
  [.record 0 (.fieldFiltered "users" "country" true), .record 5 (.fieldFiltered "users" "country" false),
    .decay, .record 0 (.indexUsed "users" "country")]

theorem filtering_forgotten : Forgets filtering :=
  (forgets_iff (by decide)).mpr fun call hcall c hc => by
    simp only [filtering, List.mem_cons, List.not_mem_nil, or_false] at hcall
    rcases hcall with rfl | rfl | rfl | rfl <;> cases c <;> first | rfl | cases hc

/-- Two fields pinned together once are remembered for ever. -/
theorem pinned_stays : ¬ Forgets [.record 0 (.fieldsPinnedTogether "users" ["age", "country"])] :=
  not_forgets (c := .pinnedSets "users" ["age", "country"]) rfl (by decide)
    (List.mem_singleton_self _) (by decide)

end Adabt.Telemetry
