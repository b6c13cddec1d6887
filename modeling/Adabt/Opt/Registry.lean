import Adabt.Indexing.Index
import Adabt.Library.OrdMap
import Mathlib.Data.Int.Notation
import Mathlib.Data.Nat.Notation
import Mathlib.Data.Prod.Lex
import Mathlib.Data.String.Basic

/-! # Optimizations, their configuration and their registry

An optimization is descriptive: it reports where it could be used, what it would
cost and which actions would enable it. What it may look at is a context that
nothing here reads. -/

set_option autoImplicit false

/-! ## The optimization configuration

The enabled optimizations, keyed by name and scope, with their tuning numbers. A
level is only sugar for one of these. -/

namespace Adabt.Opt
open Adabt.Library

structure Params where
  values : OrdMap String ℤ
  deriving DecidableEq

namespace Params

def new : Params := ⟨∅⟩

def withValue (p : Params) (k : String) (v : ℤ) : Params := ⟨p.values.insert k v⟩

/-- Later values win. -/
def ofList (kvs : List (String × ℤ)) : Params :=
  kvs.foldl (fun p kv => p.withValue kv.1 kv.2) .new

end Params

/-- Where an optimization is enabled: its name and the description of a scope. -/
abbrev Place := String ×ₗ String

def place (name scope : String) : Place := toLex (name, scope)

@[simp] theorem place_inj {n s n' s' : String} : place n s = place n' s' ↔ n = n' ∧ s = s' := by
  rw [place, place, toLex_inj, Prod.mk.injEq]

structure ConfigDiff where
  added : List Place
  removed : List Place
  retuned : List Place

structure OptimizationConfig where
  enabled : OrdMap Place Params
  deriving DecidableEq

namespace OptimizationConfig

def new : OptimizationConfig := ⟨∅⟩

def enable (c : OptimizationConfig) (name scope : String) (params : Params) : OptimizationConfig :=
  ⟨c.enabled.insert (place name scope) params⟩

def disable (c : OptimizationConfig) (name scope : String) : OptimizationConfig :=
  ⟨c.enabled.erase (place name scope)⟩

def isEnabledAnywhere (c : OptimizationConfig) (name : String) : Bool :=
  c.enabled.keys.any fun k => (ofLex k).1 = name

def params (c : OptimizationConfig) (name scope : String) : Option Params :=
  c.enabled.get (place name scope)

def entries (c : OptimizationConfig) : List (Place × Params) := c.enabled.entries

def diff (c other : OptimizationConfig) : ConfigDiff :=
  let mine := c.enabled.keys
  let theirs := other.enabled.keys
  { added := theirs.filter fun k => k ∉ mine
    removed := mine.filter fun k => k ∉ theirs
    retuned := mine.filter fun k => k ∈ theirs && c.enabled.get k != other.enabled.get k }

@[simp] theorem params_new (name scope : String) : new.params name scope = none := rfl

theorem params_enable (c : OptimizationConfig) (name scope : String) (p : Params)
    (name' scope' : String) :
    (c.enable name scope p).params name' scope' =
      if name' = name ∧ scope' = scope then some p else c.params name' scope' := by
  simp only [params, enable, OrdMap.get_insert, place_inj]

theorem params_disable (c : OptimizationConfig) (name scope name' scope' : String) :
    (c.disable name scope).params name' scope' =
      if name' = name ∧ scope' = scope then none else c.params name' scope' := by
  simp only [params, disable, OrdMap.get_erase, place_inj]

@[ext] theorem ext_params {c d : OptimizationConfig}
    (h : ∀ name scope, c.params name scope = d.params name scope) : c = d := by
  have : c.enabled = d.enabled := by
    ext k : 1
    exact h (ofLex k).1 (ofLex k).2
  cases c
  cases d
  cases this
  rfl

theorem mem_keys (c : OptimizationConfig) (name scope : String) :
    place name scope ∈ c.enabled.keys ↔ (c.params name scope).isSome :=
  c.enabled.mem_keys _

theorem isEnabledAnywhere_iff (c : OptimizationConfig) (name : String) :
    c.isEnabledAnywhere name ↔ ∃ scope, (c.params name scope).isSome := by
  simp only [isEnabledAnywhere, List.any_eq_true, decide_eq_true_eq]
  constructor
  · intro ⟨k, hk, hn⟩
    exact ⟨(ofLex k).2, (c.mem_keys _ _).mp (hn ▸ hk)⟩
  · intro ⟨scope, h⟩
    exact ⟨place name scope, (c.mem_keys _ _).mpr h, rfl⟩

theorem mem_added (c t : OptimizationConfig) (name scope : String) :
    place name scope ∈ (c.diff t).added ↔
      c.params name scope = none ∧ t.params name scope ≠ none := by
  simp only [diff, List.mem_filter, mem_keys, decide_eq_true_eq, Option.isSome_iff_ne_none,
    not_not]
  exact and_comm

theorem mem_removed (c t : OptimizationConfig) (name scope : String) :
    place name scope ∈ (c.diff t).removed ↔
      c.params name scope ≠ none ∧ t.params name scope = none := by
  simp only [diff, List.mem_filter, mem_keys, decide_eq_true_eq, Option.isSome_iff_ne_none,
    not_not]

theorem mem_retuned (c t : OptimizationConfig) (name scope : String) :
    place name scope ∈ (c.diff t).retuned ↔ c.params name scope ≠ none ∧
      t.params name scope ≠ none ∧ c.params name scope ≠ t.params name scope := by
  simp only [diff, List.mem_filter, mem_keys, Bool.and_eq_true, decide_eq_true_eq, bne_iff_ne,
    Option.isSome_iff_ne_none]
  rfl

end OptimizationConfig

end Adabt.Opt

/-! ## Policies

What the user asks of the optimizer: the mode with its level and overrides, the
guarantees that no optimization may weaken, and the ceiling on the memory that
optimizations may commit. -/

namespace Adabt.Core

/-- One explicit setting on top of a level. The scope is `"global"`, or names
one place. -/
structure Override where
  name : String
  scope : String
  enabled : Bool
  params : List (String × ℤ)
  deriving DecidableEq

inductive Mode where
  | manual (level : ℕ) (overrides : List Override)
  | adaptive
  deriving DecidableEq

/-- Declared strongest first. -/
inductive Durability where
  | strict
  | groupCommit
  | relaxed
  deriving DecidableEq, Repr

inductive Consistency where
  | strict
  | snapshot
  | eventual
  deriving DecidableEq, Repr

structure Guarantees where
  durability : Durability
  consistency : Consistency
  deriving DecidableEq, Repr

structure GuaranteeRequirements where
  maxDurability : Option Durability
  maxConsistency : Option Consistency
  deriving DecidableEq, Repr

namespace GuaranteeRequirements

def any : GuaranteeRequirements := ⟨none, none⟩

def satisfiedBy (r : GuaranteeRequirements) (g : Guarantees) : Bool :=
  (match r.maxDurability with
    | some m => !decide (g.durability.ctorIdx < m.ctorIdx)
    | none => true) &&
  match r.maxConsistency with
  | some m => !decide (g.consistency.ctorIdx < m.ctorIdx)
  | none => true

end GuaranteeRequirements

structure Constraints where
  maxRamBytes : Option ℕ
  deriving DecidableEq, Repr

structure Policy where
  mode : Mode
  guarantees : Guarantees
  constraints : Constraints
  deriving DecidableEq

end Adabt.Core

/-! ## Physical actions

An optimization describes what should change; an engine carries it out. A plan
holds the actions that enable something and those that undo them, both computed
before anything is applied. -/

namespace Adabt.Opt
open Adabt.Indexing

inductive Action where
  | createIndex (collection field : String) (kind : IndexKind)
  | dropIndex (collection field : String) (kind : IndexKind)
  | setBufferPoolPages (n : ℕ)
  | setPlanCacheEntries (n : ℕ)
  | setResultCacheEntries (n : ℕ)
  | setRecordCompression (on : Bool)
  | setPrefetch (on : Bool)
  | setDirectLookup (on : Bool)
  | setColumnStore (on : Bool)
  | setMaterializedViews (on : Bool)
  | freezeSchema (collection : String)
  | setClusterField (collection field : String)
  | clearClusterField (collection : String)
  | setDeltaEncoding (on : Bool)
  | setThreadPerCore (on : Bool)
  | setJoinOrder (on : Bool)
  | setDataPartitioning (on : Bool)
  deriving DecidableEq, Repr

namespace Action

/-- Whether the change can exist beside the current representation. -/
def isShadowable : Action → Bool
  | createIndex _ _ _ => true
  | setColumnStore on | setDirectLookup on | setMaterializedViews on => on
  | setClusterField _ _ => true
  | setDeltaEncoding on | setJoinOrder on | setDataPartitioning on => on
  | _ => false

def onOff (on : Bool) : String := if on then "on" else "off"

def describe : Action → String
  | createIndex c f kind => "create " ++ kind.asStr ++ " index on " ++ c ++ "." ++ f
  | dropIndex c f kind => "drop " ++ kind.asStr ++ " index on " ++ c ++ "." ++ f
  | setBufferPoolPages n => "set buffer pool to " ++ toString n ++ " pages"
  | setPlanCacheEntries n => "set plan cache to " ++ toString n ++ " entries"
  | setResultCacheEntries n => "set result cache to " ++ toString n ++ " entries"
  | setRecordCompression on => "record compression " ++ onOff on
  | setPrefetch on => "prefetch " ++ onOff on
  | setDirectLookup on => "direct lookup " ++ onOff on
  | setColumnStore on => "column store " ++ onOff on
  | setMaterializedViews on => "materialized views " ++ onOff on
  | freezeSchema c => "freeze the schema of " ++ c
  | setClusterField c f => "cluster " ++ c ++ " by " ++ f
  | clearClusterField c => "clear clustering of " ++ c
  | setDeltaEncoding on => "delta encoding " ++ onOff on
  | setThreadPerCore on => "thread-per-core " ++ onOff on
  | setJoinOrder on => "join order " ++ onOff on
  | setDataPartitioning on => "data partitioning " ++ onOff on

end Action

structure ChangePlan where
  apply : List Action
  revert : List Action
  deriving DecidableEq, Repr

namespace ChangePlan

def empty : ChangePlan := ⟨[], []⟩

/-- The plan that takes a recorded plan back. -/
def undo (p : ChangePlan) : ChangePlan := ⟨p.revert, p.apply⟩

end ChangePlan

end Adabt.Opt

/-! ## The registry -/

namespace Adabt.Opt
open Adabt.Core Adabt.Library

inductive ScopeKind where
  | global
  | perCollection
  | perField
  | perQueryShape
  deriving DecidableEq, Repr

inductive Applicability where
  | applicable
  | notYet (reason : String)
  | ineligible (reason : String)
  deriving DecidableEq, Repr

def Applicability.isApplicable : Applicability → Bool
  | .applicable => true
  | .notYet _ => false
  | .ineligible _ => false

structure OptMeta where
  name : String
  scopeKind : ScopeKind
  requiresGuarantees : GuaranteeRequirements
  prerequisites : List String
  conflictsWith : List String
  deriving DecidableEq

structure Optimization (Ctx : Type) where
  metadata : OptMeta
  applicability : Ctx → Applicability
  candidateScopes : Ctx → List String
  /-- The memory of its estimate, in bytes. -/
  ramBytes : Ctx → ℤ
  planEnable : Ctx → String → Params → ChangePlan
  planDisable : Ctx → String → Params → ChangePlan

/-- Whether the policy's guarantees permit it at all. -/
def permittedBy (m : OptMeta) (p : Policy) : Bool := m.requiresGuarantees.satisfiedBy p.guarantees

variable {Ctx : Type}

structure Registry (Ctx : Type) where
  order : List String
  items : OrdMap String (Optimization Ctx)
  named : ∀ name o, items.get name = some o → o.metadata.name = name
  listed : ∀ name, name ∈ order ↔ (items.get name).isSome

namespace Registry

def new : Registry Ctx :=
  { order := []
    items := ∅
    named := fun _ _ h => by cases h
    listed := fun _ => by simp }

/-- `none` models the panic on a duplicate name. -/
def register (r : Registry Ctx) (opt : Optimization Ctx) : Option (Registry Ctx) :=
  if r.items.contains opt.metadata.name then none
  else some
    { order := r.order ++ [opt.metadata.name]
      items := r.items.insert opt.metadata.name opt
      named := by
        intro name o h
        rw [OrdMap.get_insert] at h
        split_ifs at h with hn
        · cases h
          exact hn.symm
        · exact r.named name o h
      listed := by
        intro name
        rw [List.mem_append, List.mem_singleton, r.listed, OrdMap.get_insert]
        split_ifs with hn
        · simp [hn]
        · simp [hn] }

def get (r : Registry Ctx) (name : String) : Option (Optimization Ctx) := r.items.get name

def info (r : Registry Ctx) (name : String) : Option OptMeta := (r.get name).map (·.metadata)

/-- A name that declares a conflict with this one is added once. -/
def noteConflict (r : Registry Ctx) (name : String) (out : List String) (e : String) :
    List String :=
  match r.info e with
  | some m => if name ∈ m.conflictsWith ∧ e ∉ out then out ++ [e] else out
  | none => out

/-- The names among `enabled` that conflict with this one, whichever side
declares it. -/
def conflictsAmong (r : Registry Ctx) (name : String) (enabled : List String) : List String :=
  match r.info name with
  | none => []
  | some m =>
    let out := m.conflictsWith.filter fun c => c ∈ enabled
    (enabled.foldl (r.noteConflict name) out).mergeSort fun a b => a ≤ b

/-- Either side may declare a conflict. -/
def Conflict (r : Registry Ctx) (name other : String) : Prop :=
  (∃ m, r.info name = some m ∧ other ∈ m.conflictsWith) ∨
    ∃ m, r.info other = some m ∧ name ∈ m.conflictsWith

theorem Conflict.symm {r : Registry Ctx} {name other : String} (h : r.Conflict name other) :
    r.Conflict other name := Or.symm h

theorem mem_noteConflict {r : Registry Ctx} {name : String} {out : List String} {e other : String} :
    other ∈ r.noteConflict name out e ↔
      other ∈ out ∨ other = e ∧ ∃ m, r.info e = some m ∧ name ∈ m.conflictsWith := by
  rw [noteConflict]
  cases r.info e with
  | none => simp
  | some m =>
    by_cases h : name ∈ m.conflictsWith ∧ e ∉ out
    · simp [h]
    · grind

theorem mem_foldl_noteConflict {r : Registry Ctx} {name : String} {enabled out : List String}
    {other : String} : other ∈ enabled.foldl (r.noteConflict name) out ↔ other ∈ out ∨
      other ∈ enabled ∧ ∃ m, r.info other = some m ∧ name ∈ m.conflictsWith := by
  induction enabled generalizing out with
  | nil => simp
  | cons e enabled ih =>
    rw [List.foldl_cons, ih, mem_noteConflict]
    grind

theorem mem_conflictsAmong {r : Registry Ctx} {name : String} {enabled : List String}
    {other : String} : other ∈ r.conflictsAmong name enabled ↔
      (r.info name).isSome ∧ other ∈ enabled ∧ r.Conflict name other := by
  rw [conflictsAmong]
  cases hm : r.info name with
  | none => simp
  | some m =>
    rw [List.mem_mergeSort, mem_foldl_noteConflict]
    simp only [Conflict, hm, List.mem_filter, decide_eq_true_eq, Option.isSome_some]
    grind

end Registry

end Adabt.Opt
