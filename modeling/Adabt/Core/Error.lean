import Mathlib.Algebra.GroupWithZero.Nat
import Mathlib.Data.Fin.Basic

/-! # Identifiers and errors

Record and collection ids keep the width they have in the code, so that adding
one wraps where it does there. Errors are the variants of `Error` and
`SchemaError` that the modelled code raises, with the data they carry. -/

set_option autoImplicit false

namespace Adabt.Core

abbrev RecordId := Fin (2 ^ 64)

abbrev CollectionId := Fin (2 ^ 32)

instance recordId_neZero : NeZero (2 ^ 64) := ⟨by decide⟩

instance collectionId_neZero : NeZero (2 ^ 32) := ⟨by decide⟩

instance recordId_lawfulBEq : LawfulBEq RecordId := inferInstance

end Adabt.Core

namespace Adabt.Core

inductive SchemaMode where
  | dynamic
  | declared
  | strict
  | fixed
  deriving DecidableEq, Repr

inductive SchemaError where
  | unknownField (field : String) (mode : SchemaMode)
  | missingField (field : String)
  | typeMismatch (field expected actual : String)
  | tooWide (field : String) (len : ℕ) (width : UInt32)
  | zeroCapacity (field : String) (width : UInt32)
  | notFixedWidth (field : String)
  | duplicateField (field : String)
  | empty
  deriving DecidableEq, Repr

def SchemaMode.debug : SchemaMode → String
  | .dynamic => "Dynamic"
  | .declared => "Declared"
  | .strict => "Strict"
  | .fixed => "Fixed"

def SchemaError.message : SchemaError → String
  | .unknownField f m =>
    "unknown field `" ++ f ++ "` (schema mode " ++ m.debug ++ " forbids extra fields)"
  | .missingField f => "missing required field `" ++ f ++ "`"
  | .typeMismatch f e a => "field `" ++ f ++ "`: expected " ++ e ++ ", got " ++ a
  | .tooWide f l w =>
    "field `" ++ f ++ "`: value of length " ++ toString l ++ " exceeds fixed width " ++ toString w.toNat
  | .zeroCapacity f w =>
    "field `" ++ f ++ "`: fixed width " ++ toString w.toNat ++
      " leaves no room for content after its length prefix"
  | .notFixedWidth f =>
    "schema mode Fixed requires every field to be fixed-width, but `" ++ f ++ "` is not"
  | .duplicateField f => "duplicate field name `" ++ f ++ "`"
  | .empty => "schema has no fields"

inductive Error where
  | noSuchCollection (name : String)
  | collectionExists (name : String)
  | recordExists (id : RecordId)
  | schema (e : SchemaError)
  | corruption (message : String)
  | invalidOptimization (message : String)
  | unsupported (message : String)
  | transactionConflict (collection : String) (id : RecordId)
  /-- The text of the value is left out. -/
  | uniqueViolation (collection field : String)
  | restoreTargetUnreachable (requested earliest : ℕ)
  | invalidRestore (message : String)
  | cancelled (message : String)
  deriving DecidableEq, Repr

/-- How a call ends without a result. -/
inductive Fault where
  | error (e : Error)
  | panicked (message : String)
  deriving DecidableEq, Repr

/-! ## Arithmetic past a width -/

/-- What arithmetic does where a result does not fit its width. -/
inductive Build where
  | checked
  | release

namespace Build

/-- The result of unsigned 64-bit arithmetic whose exact result this is. -/
def word (b : Build) (what : String) (n : ℕ) : Except Fault ℕ :=
  if n < 2 ^ 64 then .ok n
  else match b with
    | .checked => .error (.panicked ("attempt to " ++ what ++ " with overflow"))
    | .release => .ok (n % 2 ^ 64)

/-- The result of signed 64-bit arithmetic whose exact result this is. -/
def signed (b : Build) (what : String) (n : Int) : Except Fault Int64 :=
  if Int64.minValue.toInt ≤ n ∧ n ≤ Int64.maxValue.toInt then .ok (Int64.ofInt n)
  else match b with
    | .checked => .error (.panicked ("attempt to " ++ what ++ " with overflow"))
    | .release => .ok (Int64.ofInt n)

theorem word_ok (b : Build) (what : String) {n : ℕ} (h : n < 2 ^ 64) : b.word what n = .ok n :=
  if_pos h

theorem signed_release (what : String) (n : Int) :
    release.signed what n = .ok (Int64.ofInt n) := ite_self _

end Build

end Adabt.Core
