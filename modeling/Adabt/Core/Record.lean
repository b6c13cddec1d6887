import Adabt.Core.Value

/-! # The logical record

Fields are kept sorted by name, so a record is an ordered map from names to
values. -/

set_option autoImplicit false

namespace Adabt.Core
open Adabt.Library

abbrev Record := OrdMap String OrdValue

namespace Record

def set (rec : Record) (name : String) (v : OrdValue) : Record := rec.insert name v

/-- Keep only the named fields. -/
def project (rec : Record) (names : List String) : Record :=
  names.foldl (fun out name => match rec.get name with
    | some v => out.set name v
    | none => out) ∅

theorem get_foldl_project (rec out : Record) (names : List String) (name : String) :
    (names.foldl (fun out name => match rec.get name with
      | some v => out.set name v
      | none => out) out).get name =
    if name ∈ names then (rec.get name).or (out.get name) else out.get name := by
  induction names generalizing out with
  | nil => simp
  | cons n names ih =>
    rw [List.foldl_cons, ih]
    by_cases hn : name = n
    · subst hn
      cases hg : rec.get name with
      | none => simp
      | some v => simp [set]
    · have hkeep : (match rec.get n with
          | some v => out.set n v
          | none => out).get name = out.get name := by
        cases rec.get n with
        | none => rfl
        | some v => exact OrdMap.get_insert_ne out v hn
      rw [hkeep]
      simp [hn]

theorem get_project (rec : Record) (names : List String) (name : String) :
    (rec.project names).get name = if name ∈ names then rec.get name else none := by
  rw [project, get_foldl_project, OrdMap.get_empty, Option.or_none]

theorem project_congr {a b : Record} {names : List String}
    (h : ∀ name ∈ names, a.get name = b.get name) : a.project names = b.project names := by
  ext name : 1
  rw [get_project, get_project]
  split_ifs with hn
  · exact h name hn
  · rfl

/-- A top-level field holding `Null`. -/
def HasNull (rec : Record) : Prop := ∃ e ∈ rec.entries, e.2.1.isNull

def NestedAtMost (n : ℕ) (rec : Record) : Prop := ∀ e ∈ rec.entries, e.2.1.nesting ≤ n

instance (rec : Record) : Decidable rec.HasNull :=
  inferInstanceAs (Decidable (∃ e ∈ rec.entries, _))

instance (n : ℕ) (rec : Record) : Decidable (rec.NestedAtMost n) :=
  inferInstanceAs (Decidable (∀ e ∈ rec.entries, _))

theorem NestedAtMost.get {n : ℕ} {rec : Record} (h : rec.NestedAtMost n) {name : String}
    {v : OrdValue} (hv : rec.get name = some v) : v.1.nesting ≤ n :=
  h (name, v) ((OrdMap.mem_entries rec name v).mpr hv)

theorem not_null_of_get {rec : Record} (h : ¬ rec.HasNull) {name : String} {v : OrdValue}
    (hv : rec.get name = some v) : v.1.isNull = false := by
  cases hn : v.1.isNull with
  | false => rfl
  | true => exact absurd ⟨(name, v), (OrdMap.mem_entries rec name v).mpr hv, hn⟩ h

/-- `PartialEq for Record`: the same names, with equal values. -/
def Eqv (a b : Record) : Prop :=
  List.Forall₂ (fun p q => p.1 = q.1 ∧ p.2.1.Eqv q.2.1) a.entries b.entries

instance (a b : Record) : Decidable (Eqv a b) :=
  inferInstanceAs (Decidable (List.Forall₂ _ a.entries b.entries))

theorem eqv_iff (a b : Record) :
    Eqv a b ↔ ∀ name, Option.Rel (fun v w : OrdValue => v.1.Eqv w.1) (a.get name) (b.get name) :=
  OrdMap.forall₂_entries (R := fun v w : OrdValue => v.1.Eqv w.1) a b

end Record

end Adabt.Core
