import Adabt.Core.Error
import Adabt.Core.Hash
import Adabt.Ir.Expr
import Mathlib.Data.List.Sort
import Mathlib.Data.String.Basic

/-! # Secondary indexes

Every kind of index keeps a map from keys to ascending record ids. A hash map
finds a key through its hash; a tree keeps its keys in order and also answers
ranges. `Holds` says that an index is in step with the records, and without
separators in field names the name of an index says what it is on. -/

set_option autoImplicit false

/-! ## Index names

An index answers to one name. A composite, covering or partial index joins what
it is made of with separator characters, and the name is taken apart again where
the index is looked up. -/

namespace Adabt.Indexing

def compositeSep : Char := Char.ofNat 0

def coverSep : Char := Char.ofNat 1

def partialSep : Char := Char.ofNat 2

def join (sep : Char) : List String → String
  | [] => ""
  | [name] => name
  | name :: rest => name ++ (String.singleton sep ++ join sep rest)

theorem join_cons_cons (sep : Char) (x y : String) (rest : List String) :
    join sep (x :: y :: rest) = x ++ (String.singleton sep ++ join sep (y :: rest)) := rfl

/-- What stands before and after the first separator, if there is one. -/
def splitOnce (sep : Char) (name : String) : Option (String × String) :=
  if sep ∈ name.toList then
    some (String.ofList (name.toList.takeWhile (· ≠ sep)),
      String.ofList ((name.toList.dropWhile (· ≠ sep)).drop 1))
  else none

def compositeName (fields : List String) : String := join compositeSep fields

def coveringName (field : String) (covers : List String) : String :=
  if covers.isEmpty then field
  else field ++ (String.singleton coverSep ++ join compositeSep covers)

/-- The field of a covering index's name. -/
def coveringBase (name : String) : String := ((splitOnce coverSep name).map (·.1)).getD name

def partialName (field condition : String) : String :=
  field ++ (String.singleton partialSep ++ condition)

/-- The field of a partial index's name. -/
def partialBase (name : String) : String := ((splitOnce partialSep name).map (·.1)).getD name

/-- No separator occurs in the name. -/
def Plain (name : String) : Prop :=
  compositeSep ∉ name.toList ∧ coverSep ∉ name.toList ∧ partialSep ∉ name.toList

instance (name : String) : Decidable (Plain name) := inferInstanceAs (Decidable (_ ∧ _))

theorem splitOnce_of_not_mem {sep : Char} {name : String} (h : sep ∉ name.toList) :
    splitOnce sep name = none := if_neg h

theorem splitOnce_joined {sep : Char} {name : String} (h : sep ∉ name.toList) (rest : String) :
    splitOnce sep (name ++ (String.singleton sep ++ rest)) = some (name, rest) := by
  have hlist : (name ++ (String.singleton sep ++ rest)).toList =
      name.toList ++ sep :: rest.toList := by simp
  have htake : (name.toList ++ sep :: rest.toList).takeWhile (· ≠ sep) = name.toList := by
    rw [List.takeWhile_append_of_pos fun c hc => by
      simp only [ne_eq, decide_eq_true_eq]
      rintro rfl
      exact h hc]
    simp
  have hdrop : (name.toList ++ sep :: rest.toList).dropWhile (· ≠ sep) = sep :: rest.toList := by
    rw [List.dropWhile_append_of_pos fun c hc => by
      simp only [ne_eq, decide_eq_true_eq]
      rintro rfl
      exact h hc]
    simp
  rw [splitOnce, hlist, if_pos (by simp), htake, hdrop]
  simp

/-- Names without the separator can be read back from their join. -/
theorem join_injective {sep : Char} {xs ys : List String} (hx : ∀ x ∈ xs, sep ∉ x.toList)
    (hy : ∀ y ∈ ys, sep ∉ y.toList) (hxe : xs ≠ []) (hye : ys ≠ [])
    (h : join sep xs = join sep ys) : xs = ys := by
  induction xs generalizing ys with
  | nil => exact absurd rfl hxe
  | cons x xs ih =>
    have hfree := splitOnce_of_not_mem (hx x List.mem_cons_self)
    cases ys with
    | nil => exact absurd rfl hye
    | cons y ys =>
      have hfree' := splitOnce_of_not_mem (hy y List.mem_cons_self)
      have hs := congrArg (splitOnce sep) h
      cases xs with
      | nil => cases ys with
        | nil => exact congrArg (fun z => [z]) h
        | cons y' ys =>
          rw [join_cons_cons, splitOnce_joined (hy y List.mem_cons_self)] at hs
          cases hfree.symm.trans hs
      | cons x' xs => cases ys with
        | nil =>
          rw [join_cons_cons, splitOnce_joined (hx x List.mem_cons_self)] at hs
          cases hs.trans hfree'
        | cons y' ys =>
          rw [join_cons_cons, join_cons_cons, splitOnce_joined (hx x List.mem_cons_self),
            splitOnce_joined (hy y List.mem_cons_self), Option.some.injEq, Prod.mk.injEq] at hs
          rw [hs.1, ih (fun z hz => hx z (List.mem_cons_of_mem _ hz))
            (fun z hz => hy z (List.mem_cons_of_mem _ hz)) nofun nofun hs.2]

theorem sep_mem_joined (sep : Char) (name rest : String) :
    sep ∈ (name ++ (String.singleton sep ++ rest)).toList := by simp

theorem coveringBase_plain {name : String} (h : Plain name) : coveringBase name = name := by
  rw [coveringBase, splitOnce_of_not_mem h.2.1]
  rfl

theorem partialBase_plain {name : String} (h : Plain name) : partialBase name = name := by
  rw [partialBase, splitOnce_of_not_mem h.2.2]
  rfl

theorem coveringBase_coveringName {field : String} (h : Plain field) (covers : List String) :
    coveringBase (coveringName field covers) = field := by
  rw [coveringName]
  split_ifs
  · exact coveringBase_plain h
  · rw [coveringBase, splitOnce_joined h.2.1]
    rfl

theorem partialBase_partialName {field : String} (h : Plain field) (condition : String) :
    partialBase (partialName field condition) = field := by
  rw [partialBase, partialName, splitOnce_joined h.2.2]
  rfl

end Adabt.Indexing

/-! ## Kinds and shapes -/

namespace Adabt.Indexing
open Adabt.Core Adabt.Ir Adabt.Library

inductive IndexKind where
  | hash
  | btree
  | bitmap
  deriving DecidableEq, Repr

namespace IndexKind

def asStr : IndexKind → String
  | hash => "hash"
  | btree => "btree"
  | bitmap => "bitmap"

def supportsRange (kind : IndexKind) : Bool := kind = btree

end IndexKind

/-- `LOW_CARDINALITY_KEY_COUNT`. -/
def lowCardinalityKeyCount : ℕ := 256

inductive Bound where
  | included (v : Value)
  | excluded (v : Value)
  | unbounded
  deriving Repr

/-- What an index was created over. -/
inductive IndexShape where
  | single (field : String)
  | composite (fields : List String)
  | covering (field : String) (covers : List String)
  | partialIndex (field : String) (predicate : Expr) (condition : String)

/-- The value of a field that is present and not null. -/
def filedValue (rec : Record) (field : String) : Option Value :=
  ((rec.get field).filter fun v => !v.1.isNull).map (·.1)

def filedValues (rec : Record) : List String → Option (List Value)
  | [] => some []
  | f :: fields => do
    let v ← filedValue rec f
    let rest ← filedValues rec fields
    return v :: rest

namespace IndexShape

/-- The name the index answers to. -/
def field : IndexShape → String
  | single f => f
  | composite fields => compositeName fields
  | covering f covers => coveringName f covers
  | partialIndex f _ condition => partialName f condition

def covers : IndexShape → List String
  | covering _ covers => covers
  | _ => []

def admits (shape : IndexShape) (rec : Record) : Bool :=
  match shape with
  | partialIndex _ predicate _ => predicate.matches' rec
  | _ => true

/-- The key a record that is admitted is filed under. -/
def keyFor (shape : IndexShape) (rec : Record) : Option Value :=
  match shape with
  | single f | covering f _ | partialIndex f _ _ => filedValue rec f
  | composite fields => (filedValues rec fields).map Value.list

def key (shape : IndexShape) (rec : Record) : Option Value :=
  if shape.admits rec then shape.keyFor rec else none

end IndexShape

structure Index where
  shape : IndexShape
  kind : IndexKind
  entries : List (Value × List RecordId)
  rows : OrdMap RecordId Record

/-- Whether a map of this kind takes the two keys for one. -/
def sameKey (kind : IndexKind) (stored key : Value) : Bool :=
  stored.cmp key = .eq ∧ (kind = .btree ∨ stored.hashBytes = key.hashBytes)

def insertId (id : RecordId) (ids : List RecordId) : List RecordId :=
  if id ∈ ids then ids else ids.orderedInsert (· ≤ ·) id

def insertKey (kind : IndexKind) (key : Value) (id : RecordId) :
    List (Value × List RecordId) → List (Value × List RecordId)
  | [] => [(key, [id])]
  | e :: rest =>
    if sameKey kind e.1 key then (e.1, insertId id e.2) :: rest
    else if kind = .btree ∧ key.cmp e.1 = .lt then (key, [id]) :: e :: rest
    else e :: insertKey kind key id rest

def removeKey (kind : IndexKind) (key : Value) (id : RecordId) :
    List (Value × List RecordId) → List (Value × List RecordId)
  | [] => []
  | e :: rest =>
    if sameKey kind e.1 key then
      let ids := e.2.erase id
      if ids.isEmpty then rest else (e.1, ids) :: rest
    else e :: removeKey kind key id rest

/-- The bounds a tree map refuses to walk between. -/
def crossing : Bound → Bound → Option String
  | .excluded s, .excluded e =>
    if s.cmp e = .eq then some "range start and end are equal and excluded in BTreeMap"
    else if s.cmp e = .gt then some "range start is greater than range end in BTreeMap" else none
  | .included s, .included e | .included s, .excluded e | .excluded s, .included e =>
    if s.cmp e = .gt then some "range start is greater than range end in BTreeMap" else none
  | _, _ => none

def aboveLow (key : Value) : Bound → Bool
  | .included v => v.cmp key ≠ .gt
  | .excluded v => v.cmp key = .lt
  | .unbounded => true

def belowHigh (key : Value) : Bound → Bool
  | .included v => key.cmp v ≠ .gt
  | .excluded v => key.cmp v = .lt
  | .unbounded => true

namespace Index

def new (shape : IndexShape) (kind : IndexKind) : Index := ⟨shape, kind, [], ∅⟩

def field (i : Index) : String := i.shape.field

def covers (i : Index) : List String := i.shape.covers

def covered (i : Index) (id : RecordId) : Option Record := i.rows.get id

def keyCount (i : Index) : ℕ := i.entries.length

def insert (i : Index) (key : Value) (id : RecordId) : Index :=
  { i with entries := insertKey i.kind key id i.entries }

def remove (i : Index) (key : Value) (id : RecordId) : Index :=
  { i with entries := removeKey i.kind key id i.entries }

def lookup (i : Index) (key : Value) : List RecordId :=
  ((i.entries.find? fun e => sameKey i.kind e.1 key).map (·.2)).getD []

/-- `none` when the kind keeps no order. -/
def range (i : Index) (lo hi : Bound) : Except Fault (Option (List RecordId)) :=
  if i.kind.supportsRange then
    match crossing lo hi with
    | some message => .error (.panicked message)
    | none => .ok (some ((i.entries.filter fun e =>
        aboveLow e.1 lo && belowHigh e.1 hi).flatMap (·.2)))
  else .ok none

def indexRecord (i : Index) (id : RecordId) (rec : Record) : Index :=
  match i.shape with
  | .single _ | .composite _ => match i.shape.keyFor rec with
    | some v => i.insert v id
    | none => i
  | .covering _ covers => match i.shape.keyFor rec with
    | some v => { i.insert v id with rows := i.rows.insert id (rec.project covers) }
    | none => { i with rows := i.rows.erase id }
  | .partialIndex f _ _ =>
    if i.shape.admits rec then match i.shape.keyFor rec with
      | some v => i.insert v id
      | none => i
    -- A record that no longer qualifies leaves.
    else match rec.get f with
      | some v => i.remove v.1 id
      | none => i

def unindexRecord (i : Index) (id : RecordId) (rec : Record) : Index :=
  let i := match i.shape.keyFor rec with
    | some v => i.remove v id
    | none => i
  match i.shape with
  | .covering .. => { i with rows := i.rows.erase id }
  | _ => i

def build (shape : IndexShape) (kind : IndexKind) (records : OrdMap RecordId Record) : Index :=
  records.entries.foldl (fun i r => i.indexRecord r.1 r.2) (new shape kind)

/-! ## Being in step with the records -/

/-- The keys of two entries of one map. -/
def Apart (kind : IndexKind) (a b : Value) : Prop :=
  if kind = .btree then a.cmp b = .lt else sameKey kind a b = false

instance (kind : IndexKind) (a b : Value) : Decidable (Apart kind a b) := by
  unfold Apart
  infer_instance

/-- Every record with a key is filed under it, nothing else is filed, ids ascend
under each key, and a projection stands beside every filed id. -/
structure Holds (i : Index) (records : OrdMap RecordId Record) : Prop where
  complete : ∀ r ∈ records.entries, ∀ k ∈ i.shape.key r.2,
    ∃ e ∈ i.entries, sameKey i.kind e.1 k ∧ r.1 ∈ e.2
  sound : ∀ e ∈ i.entries, ∀ id ∈ e.2,
    ∃ r ∈ records.entries, r.1 = id ∧ ∃ k ∈ i.shape.key r.2, sameKey i.kind e.1 k
  ids : ∀ e ∈ i.entries, e.2.Pairwise (· < ·)
  keys : i.entries.Pairwise fun a b => Apart i.kind a.1 b.1
  rows : ∀ r ∈ records.entries, i.covers ≠ [] → (i.shape.key r.2).isSome →
    i.rows.get r.1 = some (r.2.project i.covers)

end Index

end Adabt.Indexing

/-! ## Names say what they name

When no field name holds a separator, the name of an index tells which kind of
index it is and which fields it is on. -/

namespace Adabt.Indexing
open Adabt.Core Adabt.Ir

namespace IndexShape

/-- The single field whose value the index files records under. -/
def base : IndexShape → Option String
  | single f | covering f _ | partialIndex f _ _ => some f
  | composite _ => none

/-- No name holds a separator, and a composite index is over at least two fields. -/
def Plain : IndexShape → Prop
  | single f | partialIndex f _ _ => Indexing.Plain f
  | composite fields => 2 ≤ fields.length ∧ ∀ f ∈ fields, Indexing.Plain f
  | covering f covers => Indexing.Plain f ∧ ∀ c ∈ covers, Indexing.Plain c

instance (shape : IndexShape) : Decidable shape.Plain := by
  cases shape <;> unfold Plain <;> infer_instance

theorem keyFor_base {shape : IndexShape} {f : String} (h : shape.base = some f) (rec : Record) :
    shape.keyFor rec = filedValue rec f := by
  cases shape <;> simp_all [base, keyFor]

theorem admits_of_covers {shape : IndexShape} (h : shape.covers ≠ []) (rec : Record) :
    shape.admits rec = true := by
  cases shape with
  | single f | composite fields | partialIndex f p c => exact absurd rfl h
  | covering f covers => rfl

end IndexShape

theorem mem_join {sep c : Char} {names : List String} (h : c ∈ (join sep names).toList) :
    c = sep ∨ ∃ name ∈ names, c ∈ name.toList := by
  induction names with
  | nil => simp [join] at h
  | cons name rest ih =>
    cases rest with
    | nil => exact .inr ⟨name, List.mem_cons_self, h⟩
    | cons next rest =>
      rw [join_cons_cons, String.toList_append, String.toList_append, List.mem_append,
        List.mem_append, String.toList_singleton, List.mem_singleton] at h
      rcases h with h | h | h
      · exact .inr ⟨name, List.mem_cons_self, h⟩
      · exact .inl h
      · rcases ih h with h | ⟨n, hn, hc⟩
        · exact .inl h
        · exact .inr ⟨n, List.mem_cons_of_mem _ hn, hc⟩

theorem sep_mem_join {sep : Char} {names : List String} (h : 2 ≤ names.length) :
    sep ∈ (join sep names).toList := by
  match names, h with
  | x :: y :: rest, _ =>
    rw [join_cons_cons]
    exact sep_mem_joined sep x _

theorem compositeName_free {fields : List String} (h : ∀ f ∈ fields, Plain f) :
    coverSep ∉ (compositeName fields).toList ∧ partialSep ∉ (compositeName fields).toList := by
  constructor
  · intro hc
    rcases mem_join hc with hs | ⟨f, hf, hc⟩
    · exact absurd hs (by decide)
    · exact (h f hf).2.1 hc
  · intro hc
    rcases mem_join hc with hs | ⟨f, hf, hc⟩
    · exact absurd hs (by decide)
    · exact (h f hf).2.2 hc

theorem coveringName_free {f : String} {covers : List String} (hf : Plain f)
    (hc : ∀ c ∈ covers, Plain c) : partialSep ∉ (coveringName f covers).toList := by
  rw [coveringName]
  split_ifs
  · exact hf.2.2
  · rw [String.toList_append, String.toList_append, List.mem_append, List.mem_append,
      String.toList_singleton, List.mem_singleton]
    rintro (h | h | h)
    · exact hf.2.2 h
    · exact absurd h (by decide)
    · rcases mem_join h with h | ⟨c, hm, h⟩
      · exact absurd h (by decide)
      · exact (hc c hm).2.2 h

/-- An index found by a name whose field part is plain is on that field. -/
theorem base_of_partialBase {shape : IndexShape} (h : shape.Plain)
    (hp : Plain (partialBase shape.field)) : shape.base = some (partialBase shape.field) := by
  cases shape with
  | single f => rw [IndexShape.field, partialBase_plain h, IndexShape.base]
  | partialIndex f p c => rw [IndexShape.field, partialBase_partialName h, IndexShape.base]
  | composite fields =>
    have hname : partialBase (compositeName fields) = compositeName fields := by
      rw [partialBase, splitOnce_of_not_mem (compositeName_free h.2).2]
      rfl
    rw [IndexShape.field, hname] at hp
    exact absurd (sep_mem_join h.1) hp.1
  | covering f covers =>
    have hname : partialBase (coveringName f covers) = coveringName f covers := by
      rw [partialBase, splitOnce_of_not_mem (coveringName_free h.1 h.2)]
      rfl
    rw [IndexShape.field, hname] at hp ⊢
    rw [coveringName] at hp ⊢
    split_ifs at hp ⊢
    · rfl
    · exact absurd (sep_mem_joined coverSep f _) hp.2.1

theorem base_of_field {shape : IndexShape} (h : shape.Plain) (hp : Plain shape.field) :
    shape.base = some shape.field := by
  have hname := partialBase_plain hp
  have hbase := base_of_partialBase h (by rwa [hname])
  rwa [hname] at hbase

theorem base_of_covers {shape : IndexShape} (h : shape.Plain) (hc : shape.covers ≠ []) :
    shape.base = some (coveringBase shape.field) := by
  cases shape with
  | single f | composite fields | partialIndex f p c => exact absurd rfl hc
  | covering f covers =>
    rw [IndexShape.field, coveringBase_coveringName h.1]
    rfl

/-- An index found by the name of a composite index is that composite index. -/
theorem composite_of_field {shape : IndexShape} {fields : List String} (h : shape.Plain)
    (hlen : 2 ≤ fields.length) (hf : ∀ f ∈ fields, Plain f)
    (hn : shape.field = compositeName fields) : shape = .composite fields := by
  have hfree := compositeName_free hf
  have hsep : compositeSep ∈ (compositeName fields).toList := sep_mem_join hlen
  rw [← hn] at hfree hsep
  cases shape with
  | single f => exact absurd hsep h.1
  | partialIndex f p c => exact absurd (sep_mem_joined partialSep f c) hfree.2
  | covering f covers =>
    rw [IndexShape.field, coveringName] at hfree hsep
    split_ifs at hfree hsep
    · exact absurd hsep h.1.1
    · exact absurd (sep_mem_joined coverSep f _) hfree.1
  | composite names =>
    have hne : names ≠ [] := by
      rintro rfl
      exact absurd h.1 (by decide)
    have hne' : fields ≠ [] := by
      rintro rfl
      exact absurd hlen (by decide)
    rw [join_injective (fun x hx => (h.2 x hx).1) (fun x hx => (hf x hx).1) hne hne' hn]

end Adabt.Indexing
