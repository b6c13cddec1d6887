import Adabt.Core.Arith
import Adabt.Ir.Shape
import Adabt.Library.Table

/-! # Collecting telemetry

Counts are kept in shards. An event is recorded in one of them, a decay scales the
counts of all, and a snapshot adds the shards up. -/

set_option autoImplicit false

/-! ## Latency histograms

An exact linear region for small values, then sixteen buckets for each power of
two. The sum, which only a mean would read, is left out. -/

namespace Adabt.Telemetry
open Adabt.Core

structure Histogram where
  counts : List ℕ
  count : ℕ
  min : ℕ
  max : ℕ
  deriving DecidableEq

namespace Histogram

def subBits : ℕ := 4

def sub : ℕ := 2 ^ subBits

def buckets : ℕ := (64 - subBits + 1) * sub

def new : Histogram := ⟨List.replicate buckets 0, 0, 2 ^ 64 - 1, 0⟩

def bucket (v : ℕ) : ℕ :=
  if v < sub then v
  else (v.log2 - subBits + 1) * sub + (v / 2 ^ (v.log2 - subBits) - sub)

/-- Lower bound of the values that fall into a bucket. -/
def valueAt (i : ℕ) : ℕ := if i < sub then i else (sub + i % sub) * 2 ^ (i / sub - 1)

def record (h : Histogram) (v : ℕ) : Histogram where
  counts := h.counts.modify (bucket v) (· + 1)
  count := h.count + 1
  min := Nat.min h.min v
  max := Nat.max h.max v

def merge (h other : Histogram) : Histogram where
  counts := List.zipWith (· + ·) h.counts other.counts
  count := h.count + other.count
  min := Nat.min h.min other.min
  max := Nat.max h.max other.max

/-- The bucket in which this many values have been seen. -/
def walk (h : Histogram) (target : ℕ) : List ℕ → ℕ → ℕ → ℕ
  | [], _, _ => h.max
  | c :: cs, i, seen =>
    if c = 0 then h.walk target cs (i + 1) seen
    else if target ≤ seen + c then Nat.max (valueAt i) h.min
    else h.walk target cs (i + 1) (seen + c)

def percentile (h : Histogram) (p : ℤ) : ℕ :=
  if h.count = 0 then 0
  else
    let rank := F64.mul (F64.div (.ofInt p) (.ofInt 100)) (.ofInt h.count)
    h.walk (Nat.max rank.ceilU64 1) h.counts 0 0

@[simp] theorem count_new : new.count = 0 := rfl

@[simp] theorem count_record (h : Histogram) (v : ℕ) : (h.record v).count = h.count + 1 := rfl

example : (((new.record 5).record 6).record 1000).percentile 50 = 6 := by decide +kernel

end Histogram

end Adabt.Telemetry

/-! ## The collector -/

namespace Adabt.Telemetry
open Adabt.Core Adabt.Library
open Adabt.Ir (QueryShape)

def QueryShape.unknown : QueryShape := 0

inductive OpKind where
  | get
  | insert
  | update
  | delete
  | scan
  | count
  deriving DecidableEq

inductive Event where
  | op (collection : String) (kind : OpKind) (shape : QueryShape) (nanos rows : ℕ)
  | touch (collection : String) (id : RecordId)
  | cacheProbe (name : String) (hit : Bool)
  | indexUsed (collection field : String)
  | fieldFiltered (collection field : String) (equality : Bool)
  | fieldsPinnedTogether (collection : String) (fields : List String)
  | fieldsProjectedTogether (collection filtered : String) (fields : List String) (equality : Bool)
  | indexMaintained (collection field : String)
  | optChanged (name : String) (enabled : Bool)

/-- `+=` on `u64`. -/
def add (a b : ℕ) : ℕ := (a + b) % 2 ^ 64

/-! ## Shards -/

structure OpStats where
  calls : ℕ
  rows : ℕ
  latency : Histogram

structure ShapeStats where
  calls : ℕ
  rows : ℕ
  totalNanos : ℕ
  latency : Histogram

def OpStats.new : OpStats := ⟨0, 0, .new⟩

def ShapeStats.new : ShapeStats := ⟨0, 0, 0, .new⟩

/-- What is kept by a shard and shown by a snapshot. -/
structure Counts where
  perOp : Table OpKind OpStats
  perShape : Table QueryShape ShapeStats
  cacheHits : Table String ℕ
  cacheMisses : Table String ℕ
  fieldFilters : Table (String × String) ℕ
  equalityFilters : Table (String × String) ℕ
  pinnedSets : Table (String × List String) ℕ
  projectedCovers : Table (String × String × List String × Bool) ℕ
  indexUsage : Table (String × String) ℕ
  indexMaintenance : Table (String × String) ℕ
  touches : ℕ
  optChanges : List (String × Bool)

abbrev Shard := Counts

abbrev Snapshot := Counts

def Counts.none : Counts := ⟨∅, ∅, ∅, ∅, ∅, ∅, ∅, ∅, ∅, ∅, 0, []⟩

section Tables

variable {κ : Type} [DecidableEq κ]

def bump (t : Table κ ℕ) (k : κ) : Table κ ℕ := t.alter k 0 (add · 1)

def addUp (t u : Table κ ℕ) : Table κ ℕ := t.merge u 0 add

/-- A count that was never begun is zero. -/
def countOf (t : Table κ ℕ) (k : κ) : ℕ := (t.get k).getD 0

end Tables

namespace Shard

def record (g : Shard) : Event → Shard
  | .op _ kind shape nanos rows =>
    let g := { g with
      perOp := g.perOp.alter kind .new fun e =>
        ⟨add e.calls 1, add e.rows rows, e.latency.record nanos⟩ }
    if shape ≠ QueryShape.unknown then
      { g with
        perShape := g.perShape.alter shape .new fun s =>
          ⟨add s.calls 1, add s.rows rows, add s.totalNanos nanos, s.latency.record nanos⟩ }
    else g
  | .touch _ _ => { g with touches := add g.touches 1 }
  | .fieldsPinnedTogether collection fields =>
    if 1 < fields.length then { g with pinnedSets := bump g.pinnedSets (collection, fields) } else g
  | .fieldsProjectedTogether collection filtered fields equality =>
    if !fields.isEmpty && !filtered.isEmpty then
      { g with projectedCovers := bump g.projectedCovers (collection, filtered, fields, equality) }
    else g
  | .fieldFiltered collection field equality =>
    let g := { g with fieldFilters := bump g.fieldFilters (collection, field) }
    if equality then { g with equalityFilters := bump g.equalityFilters (collection, field) } else g
  | .indexUsed collection field => { g with indexUsage := bump g.indexUsage (collection, field) }
  | .indexMaintained collection field =>
    { g with indexMaintenance := bump g.indexMaintenance (collection, field) }
  | .cacheProbe name hit =>
    if hit then { g with cacheHits := bump g.cacheHits name }
    else { g with cacheMisses := bump g.cacheMisses name }
  | .optChanged name enabled => { g with optChanges := g.optChanges ++ [(name, enabled)] }

def scale (numerator denominator v : ℕ) : ℕ := v * numerator % 2 ^ 64 / denominator

/-- Neither the pinned sets nor the projected covers are scaled. -/
def decay (g : Shard) (numerator denominator : ℕ) : Shard :=
  let scale := scale numerator denominator
  { g with
    perOp := g.perOp.mapVal fun e => ⟨scale e.calls, scale e.rows, e.latency⟩
    perShape := g.perShape.mapVal fun s =>
      ⟨scale s.calls, scale s.rows, scale s.totalNanos, s.latency⟩
    cacheHits := g.cacheHits.mapVal scale
    cacheMisses := g.cacheMisses.mapVal scale
    fieldFilters := g.fieldFilters.mapVal scale
    equalityFilters := g.equalityFilters.mapVal scale
    indexUsage := g.indexUsage.mapVal scale
    indexMaintenance := g.indexMaintenance.mapVal scale }

end Shard

/-- One shard added to a snapshot. -/
def Snapshot.merge (out : Snapshot) (g : Shard) : Snapshot where
  perOp := out.perOp.merge g.perOp .new fun e s =>
    ⟨add e.calls s.calls, add e.rows s.rows, e.latency.merge s.latency⟩
  perShape := out.perShape.merge g.perShape .new fun e s =>
    ⟨add e.calls s.calls, add e.rows s.rows, add e.totalNanos s.totalNanos, e.latency.merge s.latency⟩
  cacheHits := addUp out.cacheHits g.cacheHits
  cacheMisses := addUp out.cacheMisses g.cacheMisses
  fieldFilters := addUp out.fieldFilters g.fieldFilters
  equalityFilters := addUp out.equalityFilters g.equalityFilters
  pinnedSets := addUp out.pinnedSets g.pinnedSets
  projectedCovers := addUp out.projectedCovers g.projectedCovers
  indexUsage := addUp out.indexUsage g.indexUsage
  indexMaintenance := addUp out.indexMaintenance g.indexMaintenance
  touches := add out.touches g.touches
  optChanges := out.optChanges ++ g.optChanges

abbrev shardCount : ℕ := 16

structure CollectingProbe where
  shards : Fin shardCount → Shard

namespace CollectingProbe

def new : CollectingProbe := ⟨fun _ => .none⟩

/-- The shard is that of the recording thread. -/
def record (p : CollectingProbe) (shard : Fin shardCount) (ev : Event) : CollectingProbe :=
  ⟨Function.update p.shards shard ((p.shards shard).record ev)⟩

def decay (p : CollectingProbe) (numerator denominator : ℕ) : CollectingProbe :=
  ⟨fun i => (p.shards i).decay numerator denominator⟩

def snapshot (p : CollectingProbe) : Snapshot :=
  (List.finRange shardCount).foldl (fun out i => out.merge (p.shards i)) .none

end CollectingProbe

/-! ## Single counts -/

/-- The counts that decisions read. -/
inductive Counter where
  | opCalls (kind : OpKind)
  | shapeCalls (shape : QueryShape)
  | cacheHits (name : String)
  | cacheMisses (name : String)
  | fieldFilters (collection field : String)
  | equalityFilters (collection field : String)
  | pinnedSets (collection : String) (fields : List String)
  | projectedCovers (collection filtered : String) (fields : List String) (equality : Bool)
  | indexUsage (collection field : String)
  | indexMaintenance (collection field : String)
  deriving DecidableEq

def Counts.count (g : Counts) : Counter → ℕ
  | .opCalls kind => ((g.perOp.get kind).map (·.calls)).getD 0
  | .shapeCalls shape => ((g.perShape.get shape).map (·.calls)).getD 0
  | .cacheHits name => countOf g.cacheHits name
  | .cacheMisses name => countOf g.cacheMisses name
  | .fieldFilters collection field => countOf g.fieldFilters (collection, field)
  | .equalityFilters collection field => countOf g.equalityFilters (collection, field)
  | .pinnedSets collection fields => countOf g.pinnedSets (collection, fields)
  | .projectedCovers collection filtered fields equality =>
    countOf g.projectedCovers (collection, filtered, fields, equality)
  | .indexUsage collection field => countOf g.indexUsage (collection, field)
  | .indexMaintenance collection field => countOf g.indexMaintenance (collection, field)

namespace Event

/-- The counts an event is recorded for. -/
def counters : Event → List Counter
  | op _ kind shape _ _ =>
    if shape ≠ QueryShape.unknown then [.opCalls kind, .shapeCalls shape] else [.opCalls kind]
  | touch _ _ => []
  | cacheProbe name hit => if hit then [.cacheHits name] else [.cacheMisses name]
  | indexUsed collection field => [.indexUsage collection field]
  | fieldFiltered collection field equality =>
    if equality then [.fieldFilters collection field, .equalityFilters collection field]
    else [.fieldFilters collection field]
  | fieldsPinnedTogether collection fields =>
    if 1 < fields.length then [.pinnedSets collection fields] else []
  | fieldsProjectedTogether collection filtered fields equality =>
    if !fields.isEmpty && !filtered.isEmpty then [.projectedCovers collection filtered fields equality]
    else []
  | indexMaintained collection field => [.indexMaintenance collection field]
  | optChanged _ _ => []

end Event

/-- The counts a decay scales. -/
def Counter.decays : Counter → Bool
  | pinnedSets _ _ => false
  | projectedCovers _ _ _ _ => false
  | _ => true

section Lemmas

variable {κ β : Type} [DecidableEq κ]

/-- A number of an entry, where a missing entry has none. -/
theorem number_alter {t : Table κ β} {k k' : κ} {fresh : β} {f : β → β} {number : β → ℕ}
    (hfresh : number fresh = 0) (hf : ∀ e, number (f e) = add (number e) 1) :
    (((t.alter k fresh f).get k').map number).getD 0 =
      if k' = k then add (((t.get k').map number).getD 0) 1 else ((t.get k').map number).getD 0 := by
  rw [Table.get_alter]
  split_ifs with hk
  · subst hk
    cases t.get k' with
    | none => simp [hf, hfresh]
    | some e => simp [hf]
  · rfl

theorem number_mapVal {t : Table κ β} {k : κ} {f : β → β} {number : β → ℕ} {scale : ℕ → ℕ}
    (hscale : scale 0 = 0) (hf : ∀ e, number (f e) = scale (number e)) :
    (((t.mapVal f).get k).map number).getD 0 = scale (((t.get k).map number).getD 0) := by
  rw [Table.get_mapVal]
  cases t.get k with
  | none => exact hscale.symm
  | some e => exact hf e

theorem countOf_eq (t : Table κ ℕ) (k : κ) : countOf t k = ((t.get k).map id).getD 0 := by
  rw [Option.map_id]
  rfl

@[simp] theorem countOf_bump (t : Table κ ℕ) (k k' : κ) :
    countOf (bump t k) k' = if k' = k then add (countOf t k') 1 else countOf t k' := by
  rw [countOf_eq, countOf_eq]
  exact number_alter rfl fun _ => rfl

theorem countOf_mapVal {scale : ℕ → ℕ} (hscale : scale 0 = 0) (t : Table κ ℕ) (k : κ) :
    countOf (t.mapVal scale) k = scale (countOf t k) := by
  rw [countOf_eq, countOf_eq]
  exact number_mapVal hscale fun _ => rfl

/-- What a number is after another was added to it, if there was another. -/
def Added (a b r : ℕ) : Prop := (b = 0 ∧ r = a) ∨ r = add a b

theorem added_merge {γ : Type} {t : Table κ β} {u : Table κ γ} {k : κ} {fresh : β}
    {f : β → γ → β} {number : β → ℕ} {number' : γ → ℕ} (hfresh : number fresh = 0)
    (hf : ∀ e s, number (f e s) = add (number e) (number' s)) :
    Added (((t.get k).map number).getD 0) (((u.get k).map number').getD 0)
      ((((t.merge u fresh f).get k).map number).getD 0) := by
  rw [Table.get_merge]
  cases u.get k with
  | none => exact .inl ⟨rfl, rfl⟩
  | some s =>
    right
    cases t.get k with
    | none => simp [hf, hfresh]
    | some e => simp [hf]

theorem added_addUp (t u : Table κ ℕ) (k : κ) :
    Added (countOf t k) (countOf u k) (countOf (addUp t u) k) := by
  rw [countOf_eq, countOf_eq, countOf_eq]
  exact added_merge rfl fun _ _ => rfl

end Lemmas

end Adabt.Telemetry

/-! ## What decisions read of a snapshot -/

namespace Adabt.Telemetry.Snapshot
open Adabt.Core Adabt.Library
open Adabt.Ir (QueryShape)

def isWrite : OpKind → Bool
  | .insert => true
  | .update => true
  | .delete => true
  | _ => false

def totalCalls (s : Snapshot) : ℕ := s.perOp.entries.foldl (fun n e => add n e.2.calls) 0

/-- The share of the operations that change data. -/
def writeFraction (s : Snapshot) : F64 :=
  let total := s.totalCalls
  if total = 0 then .zero
  else
    let writes := (s.perOp.entries.filter fun e => isWrite e.1).foldl (fun n e => add n e.2.calls) 0
    F64.div (.ofInt writes) (.ofInt total)

/-- A cache that was never hit has no rate. -/
def hitRate (s : Snapshot) (cache : String) : Option F64 := do
  let hits ← s.cacheHits.get cache
  let h := F64.ofInt hits
  let m := F64.ofInt (countOf s.cacheMisses cache)
  if F64.beq (F64.add h m) .zero then none else some (F64.div h (F64.add h m))

/-- The shape that most time went to. -/
def hottestShape (s : Snapshot) : Option (QueryShape × ShapeStats) :=
  (s.perShape.entries.mergeSort fun a b =>
    b.2.totalNanos < a.2.totalNanos || (b.2.totalNanos = a.2.totalNanos && a.1 ≤ b.1)).head?

def indexUseCount (s : Snapshot) (collection field : String) : ℕ :=
  countOf s.indexUsage (collection, field)

def indexMaintenanceCount (s : Snapshot) (collection field : String) : ℕ :=
  countOf s.indexMaintenance (collection, field)

/-- The filtered fields, those most often filtered first. -/
def hotFields (s : Snapshot) : List (String × String) :=
  (s.fieldFilters.entries.mergeSort fun a b =>
    b.2 < a.2 || (b.2 = a.2 && (a.1.1 < b.1.1 || (a.1.1 = b.1.1 && a.1.2 ≤ b.1.2)))).map (·.1)

end Adabt.Telemetry.Snapshot
