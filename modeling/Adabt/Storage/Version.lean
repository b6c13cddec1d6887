import Adabt.Library.Sequences
import Adabt.Library.VersionStore
import Adabt.Storage.Page

/-! # Record versions

Every write is stamped, superseded versions stay in their record's chain while
an open snapshot might need them, and a reader at stamp `t` sees the newest
version stamped at or before `t`. -/

set_option autoImplicit false

namespace Adabt.Storage
open Adabt.Library

structure VersionTracker where
  next : ℕ
  /-- The stamps of the open snapshots. -/
  opened : List ℕ
  deriving DecidableEq, Repr

namespace VersionTracker

def new : VersionTracker := ⟨1, []⟩

def beginWrite (t : VersionTracker) : VersionTracker := { t with next := t.next + 1 }

/-- The stamp a new snapshot reads at: everything committed so far. -/
def current (t : VersionTracker) : ℕ := t.next - 1

def openSnapshot (t : VersionTracker) : VersionTracker := { t with opened := t.opened ++ [t.current] }

def closeSnapshot (t : VersionTracker) (stamp : ℕ) : VersionTracker :=
  { t with opened := swapRemoveFirst stamp t.opened }

/-- Versions superseded at or before this stamp can never be read again. -/
def reclaimHorizon (t : VersionTracker) : ℕ := t.opened.min?.getD t.current

theorem reclaimHorizon_le {t : VersionTracker} {stamp : ℕ} (h : stamp ∈ t.opened) :
    t.reclaimHorizon ≤ stamp := by
  unfold reclaimHorizon
  cases hm : t.opened.min? with
  | none =>
    rw [List.min?_eq_none_iff.mp hm] at h
    cases h
  | some m => exact (List.min?_eq_some_iff.mp hm).2 stamp h

end VersionTracker

/-- Every version of one record, oldest first; `none` marks a delete. -/
structure VersionChain where
  versions : Chain RecordLocation
  deriving DecidableEq, Repr

namespace VersionChain

def empty : VersionChain := ⟨[]⟩

def single (stamp : ℕ) (loc : RecordLocation) : VersionChain := ⟨[(stamp, some loc)]⟩

def newest (c : VersionChain) : Option RecordLocation := c.versions.getLast?.bind (·.2)

/-- The stamp of the newest version, whether it is a value or a tombstone. -/
def newestStamp (c : VersionChain) : Option ℕ := c.versions.getLast?.map (·.1)

def visibleAt (c : VersionChain) (stamp : ℕ) : Option RecordLocation :=
  (c.versions.reverse.find? (·.1 ≤ stamp)).bind (·.2)

def push (c : VersionChain) (stamp : ℕ) (loc : Option RecordLocation) : VersionChain :=
  ⟨c.versions ++ [(stamp, loc)]⟩

/-- The locations the chain refers to. -/
def locations (c : VersionChain) : List RecordLocation := c.versions.filterMap (·.2)

/-- Drop versions no snapshot can reach, and return the locations they held. -/
def reclaimTo (c : VersionChain) (horizon : ℕ) : VersionChain × List RecordLocation :=
  match rposition (·.1 ≤ horizon) c.versions with
  | some i => (⟨c.versions.drop i⟩, (c.versions.take i).filterMap (·.2))
  | none => (c, [])

def len (c : VersionChain) : ℕ := c.versions.length

def isAbsent (c : VersionChain) : Bool := c.newest.isNone

theorem newest_eq (c : VersionChain) : c.newest = Chain.newest c.versions := rfl

theorem isAbsent_iff {c : VersionChain} : c.isAbsent = true ↔ c.newest = none :=
  Option.isNone_iff_eq_none

/-- The versions `reclaimTo` drops. -/
def gone (c : VersionChain) (horizon : ℕ) : Chain RecordLocation :=
  match rposition (·.1 ≤ horizon) c.versions with
  | some i => c.versions.take i
  | none => []

theorem reclaimTo_freed (c : VersionChain) (horizon : ℕ) :
    (c.reclaimTo horizon).2 = (c.gone horizon).filterMap (·.2) := by
  unfold reclaimTo gone
  cases rposition (·.1 ≤ horizon) c.versions <;> rfl

theorem reclaimTo_trim (c : VersionChain) (horizon : ℕ) :
    Chain.Trim horizon c.versions (c.gone horizon) (c.reclaimTo horizon).1.versions := by
  unfold reclaimTo gone
  cases hr : rposition (·.1 ≤ horizon) c.versions with
  | none =>
    refine ⟨rfl, fun h => absurd rfl h, fun v hv => ?_⟩
    have := rposition_eq_none.mp hr v (List.mem_of_mem_tail hv)
    simpa using this
  | some i =>
    obtain ⟨before, x, after, hc, hi, hx, hafter⟩ := rposition_eq_some hr
    have hdrop : c.versions.drop i = x :: after := by rw [hc, ← hi, List.drop_left]
    refine ⟨(List.take_append_drop i _).symm, fun _ => ⟨x, after, hdrop, of_decide_eq_true hx⟩,
      fun v hv => ?_⟩
    dsimp only at hv
    rw [hdrop] at hv
    simpa using hafter v hv

/-- The chain `reclaim` drops is the one holding only a tombstone. -/
theorem settle_versions (c : VersionChain) :
    Chain.settle c.versions = if c.len = 1 && c.isAbsent then [] else c.versions := by
  obtain ⟨vs⟩ := c
  match vs with
  | [] => rfl
  | [(_, none)] => rfl
  | [(_, some _)] => rfl
  | a :: b :: rest => simp [Chain.settle, len]

end VersionChain

end Adabt.Storage
