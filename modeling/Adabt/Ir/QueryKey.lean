import Adabt.Ir.Shape
import Adabt.Library.Feed

/-! # When query keys separate queries

The bytes fed to a key leave out the lengths of byte strings and of four of the
lists of a plan, mark the end of a string by a byte the string may hold, and
write an aggregate without a field as one over `*`. Those are the extents of a
plan. Plans fed alike are the same plan exactly when their extents agree. -/

set_option autoImplicit false

namespace Adabt.Core.Value

mutual

/-- The value with every float replaced by the one its canonical bits stand for. -/
def canonical : Value → Value
  | f64 f => f64 ⟨UInt64.ofNat f.canonical⟩
  | list items => list (canonicalItems items)
  | map m => map (canonicalEntries m)
  | v => v

def canonicalItems : List Value → List Value
  | [] => []
  | v :: vs => canonical v :: canonicalItems vs

def canonicalEntries : List (String × Value) → List (String × Value)
  | [] => []
  | (k, v) :: es => (k, canonical v) :: canonicalEntries es

end

mutual

/-- Every list and map has a length that a `usize` holds. -/
def Addressable : Value → Prop
  | list items => items.length < 2 ^ 64 ∧ AddressableItems items
  | map m => m.length < 2 ^ 64 ∧ AddressableEntries m
  | _ => True

def AddressableItems : List Value → Prop
  | [] => True
  | v :: vs => Addressable v ∧ AddressableItems vs

def AddressableEntries : List (String × Value) → Prop
  | [] => True
  | (_, v) :: es => Addressable v ∧ AddressableEntries es

end

end Adabt.Core.Value

namespace Adabt.Ir
open Adabt.Core Adabt.Library
open Adabt.Storage (utf8)
open Fnv (str usize)

/-! ## Canonical forms, lengths and extents -/

namespace Expr

mutual

def canonical : Expr → Expr
  | literal v => literal v.canonical
  | field f => field f
  | compare op lhs rhs => compare op (canonical lhs) (canonical rhs)
  | and parts => and (canonicalAll parts)
  | or parts => or (canonicalAll parts)
  | not inner => not (canonical inner)
  | isNull inner => isNull (canonical inner)
  | isNotNull inner => isNotNull (canonical inner)
  | arith op lhs rhs => arith op (canonical lhs) (canonical rhs)
  | within needle list => within (canonical needle) (canonicalAll list)
  | like text pattern => like (canonical text) pattern

def canonicalAll : List Expr → List Expr
  | [] => []
  | e :: es => canonical e :: canonicalAll es

end

mutual

def Addressable : Expr → Prop
  | literal v => v.Addressable
  | field _ => True
  | compare _ lhs rhs | arith _ lhs rhs => Addressable lhs ∧ Addressable rhs
  | and parts | or parts => parts.length < 2 ^ 64 ∧ AddressableAll parts
  | not inner | isNull inner | isNotNull inner => Addressable inner
  | within needle list => Addressable needle ∧ list.length < 2 ^ 64 ∧ AddressableAll list
  | like text _ => Addressable text

def AddressableAll : List Expr → Prop
  | [] => True
  | e :: es => Addressable e ∧ AddressableAll es

end

end Expr

def LogicalOp.canonical : LogicalOp → LogicalOp
  | getById collection id => getById collection id
  | getByIds collection ids => getByIds collection ids
  | scan collection => scan collection
  | filter input predicate => filter input.canonical predicate.canonical
  | project input fields => project input.canonical fields
  | sort input keys => sort input.canonical keys
  | limit input n => limit input.canonical n
  | aggregate input groupBy aggs => aggregate input.canonical groupBy aggs
  | join left right kind on => join left.canonical right.canonical kind on

def LogicalOp.Addressable : LogicalOp → Prop
  | getById .. | scan _ => True
  | getByIds _ ids => ids.length < 2 ^ 64
  | filter input predicate => predicate.Addressable ∧ input.Addressable
  | project input _ | sort input _ | limit input _ | aggregate input _ _ => input.Addressable
  | join left right _ _ => left.Addressable ∧ right.Addressable

/-- How many zero bytes a string holds. -/
def zeros (s : String) : List ℕ := [(utf8 s).count 0]

mutual

def valueExtents : Value → List ℕ
  | .str s => zeros s
  | .bytes b => [b.length]
  | .list items => valuesExtents items
  | .map m => entriesExtents m
  | _ => []

def valuesExtents : List Value → List ℕ
  | [] => []
  | v :: vs => valueExtents v ++ valuesExtents vs

def entriesExtents : List (String × Value) → List ℕ
  | [] => []
  | (k, v) :: es => zeros k ++ valueExtents v ++ entriesExtents es

end

mutual

def exprExtents : Expr → List ℕ
  | .literal v => valueExtents v
  | .field f => zeros f
  | .compare _ lhs rhs | .arith _ lhs rhs => exprExtents lhs ++ exprExtents rhs
  | .and parts | .or parts => exprsExtents parts
  | .not inner | .isNull inner | .isNotNull inner => exprExtents inner
  | .within needle list => exprExtents needle ++ exprsExtents list
  | .like text pattern => exprExtents text ++ zeros pattern

def exprsExtents : List Expr → List ℕ
  | [] => []
  | e :: es => exprExtents e ++ exprsExtents es

end

def aggExtents (a : Agg) : List ℕ :=
  [if a.field.isSome then 1 else 0] ++ zeros (aggField a) ++ zeros a.output

/-- What the bytes of a key leave out, in the order of hashing: the zero bytes
inside each string, the length of each byte string, the lengths of the lists
written without one, and whether an aggregate has a field. -/
def extents : LogicalOp → List ℕ
  | .getById collection _ | .getByIds collection _ | .scan collection => zeros collection
  | .filter input predicate => exprExtents predicate ++ extents input
  | .project input fields => [fields.length] ++ fields.flatMap zeros ++ extents input
  | .sort input keys => [keys.length] ++ keys.flatMap (fun k => zeros k.field) ++ extents input
  | .limit input _ => extents input
  | .aggregate input groupBy aggs =>
    [groupBy.length] ++ groupBy.flatMap zeros ++ [aggs.length] ++ aggs.flatMap aggExtents ++
      extents input
  | .join left right _ on => zeros on.1 ++ zeros on.2 ++ extents left ++ extents right

/-! ## Separation of the pieces -/

section Pieces

variable {β : Type} {k m : List β} {P Q : Prop}

theorem utf8_injective {s t : String} (h : utf8 s = utf8 t) : s = t := by
  have hs := Storage.decodeUtf8_utf8 s
  rw [h, Storage.decodeUtf8_utf8] at hs
  exact (Option.some.inj hs).symm

theorem str_separates (s t : String) :
    Separates (s = t) (str s) (str t) (zeros s) (zeros t) :=
  (Separates.marked (utf8 s) (utf8 t) 0).imp utf8_injective

/-- The names the hashing itself writes hold no zero byte. -/
theorem tag_separates {s t : String} (hs : 0 ∉ utf8 s) (ht : 0 ∉ utf8 t) :
    Separates (s = t) (str s) (str t) ([] : List β) [] := by
  intro r r' l l' h hk
  rw [str, str, List.append_assoc, List.append_assoc] at h
  have hc : (utf8 s).count 0 = (utf8 t).count 0 := by
    rw [List.count_eq_zero.mpr hs, List.count_eq_zero.mpr ht]
  obtain ⟨he, hr⟩ := append_mark_inj hc h
  exact ⟨utf8_injective he, hr, hk⟩

theorem leBytes_separates {n a b : ℕ} (ha : a < 256 ^ n) (hb : b < 256 ^ n) :
    Separates (a = b) (leBytes n a) (leBytes n b) ([] : List β) [] :=
  (Separates.fixed (by simp)).imp (leBytes_injective ha hb)

theorem usize_separates {a b : ℕ} (ha : a < 2 ^ 64) (hb : b < 2 ^ 64) :
    Separates (a = b) (usize a) (usize b) ([] : List β) [] :=
  leBytes_separates ha hb

theorem common (p : Bytes) {s t : Bytes} (h : Separates P s t k m) :
    Separates P (p ++ s) (p ++ t) k m :=
  ((Separates.fixed rfl).append fun _ => h).imp And.right

theorem same (s : Bytes) : Separates True s s ([] : List β) [] :=
  (Separates.fixed rfl).imp fun _ => trivial

theorem impossible {s t : Bytes} (h : ∀ r r', s ++ r ≠ t ++ r') : Separates P s t k m :=
  fun r r' _ _ hs _ => absurd hs (h r r')

end Pieces

/-! ## Separation of values -/

theorem typeName_clean (v : Value) : 0 ∉ utf8 v.typeName := by
  cases v <;> simp only [Value.typeName] <;> decide

theorem hashValue_tag (v : Value) : ∃ rest, hashValue v = str v.typeName ++ rest := by
  cases v <;> simp [hashValue, Value.typeName, List.append_assoc]

theorem value_differ {P : Prop} {k m : List ℕ} {x y : Value} (h : x.typeName ≠ y.typeName) :
    Separates P (hashValue x) (hashValue y) k m := by
  apply impossible
  intro r r' hs
  obtain ⟨a, ha⟩ := hashValue_tag x
  obtain ⟨b, hb⟩ := hashValue_tag y
  rw [ha, hb, List.append_assoc, List.append_assoc] at hs
  exact h (tag_separates (typeName_clean x) (typeName_clean y) _ _ ([] : List ℕ) [] hs rfl).1

theorem byte_separates (a b : UInt8) : Separates (a = b) [a] [b] ([] : List ℕ) [] :=
  (Separates.fixed (by simp)).imp fun h => List.singleton_injective h

theorem bool_separates (a b : Bool) :
    Separates (a = b) [a.toUInt8] [b.toUInt8] ([] : List ℕ) [] := by
  apply (byte_separates a.toUInt8 b.toUInt8).imp
  cases a <;> cases b <;> decide

theorem int64_separates (a b : Int64) :
    Separates (a = b) (leBytes 8 a.toUInt64.toNat) (leBytes 8 b.toUInt64.toNat) ([] : List ℕ) [] :=
  (leBytes_separates a.toUInt64.toNat_lt b.toUInt64.toNat_lt).imp
    fun h => congrArg Int64.ofUInt64 (UInt64.toNat_inj.mp h)

theorem canonical_lt (f : F64) : f.canonical < 256 ^ 8 := by
  have h := f.bits.toNat_lt
  unfold F64.canonical
  split_ifs <;> omega

theorem f64_separates (f g : F64) :
    Separates ((Value.f64 f).canonical = (Value.f64 g).canonical)
      (leBytes 8 f.canonical) (leBytes 8 g.canonical) ([] : List ℕ) [] :=
  (leBytes_separates (canonical_lt f) (canonical_lt g)).imp
    fun h => by rw [Value.canonical, Value.canonical, h]

theorem decimal_separates (a b : BitVec 128) (s t : UInt8) :
    Separates (a = b ∧ s = t) (leBytes 16 a.toNat ++ [s]) (leBytes 16 b.toNat ++ [t])
      ([] : List ℕ) [] :=
  ((leBytes_separates a.isLt b.isLt).append fun _ => byte_separates s t).imp
    fun h => ⟨BitVec.eq_of_toNat_eq h.1, h.2⟩

mutual

theorem hashValue_separates : (x y : Value) → x.Addressable → y.Addressable →
    Separates (x.canonical = y.canonical) (hashValue x) (hashValue y)
      (valueExtents x) (valueExtents y)
  | .null, y, _, _ => by
    cases y with
    | null => exact (same _).imp fun _ => rfl
    | _ => exact value_differ (by simp [Value.typeName])
  | .bool a, y, _, _ => by
    cases y with
    | bool b => exact common _ ((bool_separates a b).imp (congrArg _))
    | _ => exact value_differ (by simp [Value.typeName])
  | .i64 a, y, _, _ => by
    cases y with
    | i64 b => exact common _ ((int64_separates a b).imp (congrArg _))
    | _ => exact value_differ (by simp [Value.typeName])
  | .timestamp a, y, _, _ => by
    cases y with
    | timestamp b => exact common _ ((int64_separates a b).imp (congrArg _))
    | _ => exact value_differ (by simp [Value.typeName])
  | .u64 a, y, _, _ => by
    cases y with
    | u64 b =>
      have h := leBytes_separates (β := ℕ) (n := 8) a.toNat_lt b.toNat_lt
      exact common _ (h.imp fun h => congrArg (Value.canonical ∘ .u64) (UInt64.toNat_inj.mp h))
    | _ => exact value_differ (by simp [Value.typeName])
  | .f64 a, y, _, _ => by
    cases y with
    | f64 b => exact common _ (f64_separates a b)
    | _ => exact value_differ (by simp [Value.typeName])
  | .decimal a s, y, _, _ => by
    cases y with
    | decimal b t =>
      simp only [hashValue, List.append_assoc]
      exact common _ ((decimal_separates a b s t).imp fun h => by rw [h.1, h.2])
    | _ => exact value_differ (by simp [Value.typeName])
  | .str a, y, _, _ => by
    cases y with
    | str b => exact common _ ((str_separates a b).imp (congrArg _))
    | _ => exact value_differ (by simp [Value.typeName])
  | .bytes a, y, _, _ => by
    cases y with
    | bytes b =>
      -- Only the extents say where the byte strings end.
      have h := (Separates.extent (α := UInt8) a.length b.length).append
        fun h => Separates.fixed (β := ℕ) h
      exact common _ (h.imp fun h => congrArg (Value.canonical ∘ .bytes) h.2)
    | _ => exact value_differ (by simp [Value.typeName])
  | .list xs, y, hx, hy => by
    cases y with
    | list ys =>
      have h := (usize_separates (β := ℕ) hx.1 hy.1).append
        fun hl => hashValues_separates xs ys hl hx.2 hy.2
      simp only [hashValue, List.append_assoc]
      exact common _ (h.imp fun h => congrArg Value.list h.2)
    | _ => exact value_differ (by simp [Value.typeName])
  | .map xs, y, hx, hy => by
    cases y with
    | map ys =>
      have h := (usize_separates (β := ℕ) hx.1 hy.1).append
        fun hl => hashEntries_separates xs ys hl hx.2 hy.2
      simp only [hashValue, List.append_assoc]
      exact common _ (h.imp fun h => congrArg Value.map h.2)
    | _ => exact value_differ (by simp [Value.typeName])

theorem hashValues_separates : (xs ys : List Value) → xs.length = ys.length →
    Value.AddressableItems xs → Value.AddressableItems ys →
    Separates (Value.canonicalItems xs = Value.canonicalItems ys) (hashValues xs) (hashValues ys)
      (valuesExtents xs) (valuesExtents ys)
  | [], [], _, _, _ => Separates.nil.imp fun _ => rfl
  | x :: xs, y :: ys, hl, hx, hy => by
    have h := (hashValue_separates x y hx.1 hy.1).append
      fun _ => hashValues_separates xs ys (by simpa using hl) hx.2 hy.2
    exact h.imp fun h => congrArg₂ _ h.1 h.2

theorem hashEntries_separates : (xs ys : List (String × Value)) → xs.length = ys.length →
    Value.AddressableEntries xs → Value.AddressableEntries ys →
    Separates (Value.canonicalEntries xs = Value.canonicalEntries ys)
      (hashEntries xs) (hashEntries ys) (entriesExtents xs) (entriesExtents ys)
  | [], [], _, _, _ => Separates.nil.imp fun _ => rfl
  | (j, x) :: xs, (k, y) :: ys, hl, hx, hy => by
    have h := ((str_separates j k).append fun _ => hashValue_separates x y hx.1 hy.1).append
      fun _ => hashEntries_separates xs ys (by simpa using hl) hx.2 hy.2
    exact h.imp fun h => by
      rw [Value.canonicalEntries, Value.canonicalEntries, h.1.1, h.1.2, h.2]

end

/-! ## Separation of expressions -/

/-- An enumeration written by its names. -/
theorem named_separates {τ : Type} {name : τ → String} (hc : ∀ a, 0 ∉ utf8 (name a))
    (hi : ∀ a b, name a = name b → a = b) (a b : τ) :
    Separates (a = b) (str (name a)) (str (name b)) ([] : List ℕ) [] :=
  (tag_separates (hc a) (hc b)).imp (hi a b)

theorem cmpOp_separates (a b : CmpOp) :
    Separates (a = b) (str a.asStr) (str b.asStr) ([] : List ℕ) [] := by
  apply named_separates
  · intro a
    cases a <;> decide
  · intro a b
    cases a <;> cases b <;> simp [CmpOp.asStr]

theorem arithOp_separates (a b : ArithOp) :
    Separates (a = b) (str (arithOpStr a)) (str (arithOpStr b)) ([] : List ℕ) [] := by
  apply named_separates
  · intro a
    cases a <;> decide
  · intro a b
    cases a <;> cases b <;> simp [arithOpStr]

namespace Expr

/-- The name hashing writes first. -/
def tag : Expr → String
  | literal _ => "lit"
  | field _ => "field"
  | compare .. => "cmp"
  | and _ => "and"
  | or _ => "or"
  | not _ => "not"
  | isNull _ => "isnull"
  | isNotNull _ => "isnotnull"
  | arith .. => "arith"
  | within .. => "in"
  | like .. => "like"

theorem tag_clean (e : Expr) : 0 ∉ utf8 e.tag := by
  cases e <;> simp only [tag] <;> decide

end Expr

theorem hashExpr_tag (e : Expr) : ∃ rest, hashExprWithLiterals e = str e.tag ++ rest := by
  cases e <;> simp [hashExprWithLiterals, Expr.tag, List.append_assoc]

theorem expr_differ {P : Prop} {k m : List ℕ} {x y : Expr} (h : x.tag ≠ y.tag) :
    Separates P (hashExprWithLiterals x) (hashExprWithLiterals y) k m := by
  apply impossible
  intro r r' hs
  obtain ⟨a, ha⟩ := hashExpr_tag x
  obtain ⟨b, hb⟩ := hashExpr_tag y
  rw [ha, hb, List.append_assoc, List.append_assoc] at hs
  exact h (tag_separates x.tag_clean y.tag_clean _ _ ([] : List ℕ) [] hs rfl).1

mutual

theorem hashExpr_separates : (x y : Expr) → x.Addressable → y.Addressable →
    Separates (x.canonical = y.canonical) (hashExprWithLiterals x) (hashExprWithLiterals y)
      (exprExtents x) (exprExtents y)
  | .literal a, y, hx, hy => by
    cases y with
    | literal b => exact common _ ((hashValue_separates a b hx hy).imp (congrArg Expr.literal))
    | _ => exact expr_differ (by simp [Expr.tag])
  | .field a, y, _, _ => by
    cases y with
    | field b => exact common _ ((str_separates a b).imp (congrArg (Expr.canonical ∘ .field)))
    | _ => exact expr_differ (by simp [Expr.tag])
  | .compare o a b, y, hx, hy => by
    cases y with
    | compare p c d =>
      have h := ((cmpOp_separates o p).append fun _ => hashExpr_separates a c hx.1 hy.1).append
        fun _ => hashExpr_separates b d hx.2 hy.2
      simp only [hashExprWithLiterals, List.append_assoc] at h ⊢
      exact common _ (h.imp fun h => by rw [Expr.canonical, Expr.canonical, h.1.1, h.1.2, h.2])
    | _ => exact expr_differ (by simp [Expr.tag])
  | .and xs, y, hx, hy => by
    cases y with
    | and ys =>
      have h := (usize_separates (β := ℕ) hx.1 hy.1).append
        fun hl => hashExprs_separates xs ys hl hx.2 hy.2
      simp only [hashExprWithLiterals, List.append_assoc]
      exact common _ (h.imp fun h => congrArg Expr.and h.2)
    | _ => exact expr_differ (by simp [Expr.tag])
  | .or xs, y, hx, hy => by
    cases y with
    | or ys =>
      have h := (usize_separates (β := ℕ) hx.1 hy.1).append
        fun hl => hashExprs_separates xs ys hl hx.2 hy.2
      simp only [hashExprWithLiterals, List.append_assoc]
      exact common _ (h.imp fun h => congrArg Expr.or h.2)
    | _ => exact expr_differ (by simp [Expr.tag])
  | .not a, y, hx, hy => by
    cases y with
    | not b => exact common _ ((hashExpr_separates a b hx hy).imp (congrArg Expr.not))
    | _ => exact expr_differ (by simp [Expr.tag])
  | .isNull a, y, hx, hy => by
    cases y with
    | isNull b => exact common _ ((hashExpr_separates a b hx hy).imp (congrArg Expr.isNull))
    | _ => exact expr_differ (by simp [Expr.tag])
  | .isNotNull a, y, hx, hy => by
    cases y with
    | isNotNull b => exact common _ ((hashExpr_separates a b hx hy).imp (congrArg Expr.isNotNull))
    | _ => exact expr_differ (by simp [Expr.tag])
  | .arith o a b, y, hx, hy => by
    cases y with
    | arith p c d =>
      have h := ((arithOp_separates o p).append fun _ => hashExpr_separates a c hx.1 hy.1).append
        fun _ => hashExpr_separates b d hx.2 hy.2
      simp only [hashExprWithLiterals, List.append_assoc] at h ⊢
      exact common _ (h.imp fun h => by rw [Expr.canonical, Expr.canonical, h.1.1, h.1.2, h.2])
    | _ => exact expr_differ (by simp [Expr.tag])
  | .within a xs, y, hx, hy => by
    cases y with
    | within b ys =>
      have h := (hashExpr_separates a b hx.1 hy.1).append
        fun _ => (usize_separates (β := ℕ) hx.2.1 hy.2.1).append
          fun hl => hashExprs_separates xs ys hl hx.2.2 hy.2.2
      simp only [hashExprWithLiterals, List.append_assoc]
      exact common _ (h.imp fun h => congrArg₂ Expr.within h.1 h.2.2)
    | _ => exact expr_differ (by simp [Expr.tag])
  | .like a s, y, hx, hy => by
    cases y with
    | like b t =>
      have h := (hashExpr_separates a b hx hy).append fun _ => str_separates s t
      simp only [hashExprWithLiterals, List.append_assoc]
      exact common _ (h.imp fun h => congrArg₂ Expr.like h.1 h.2)
    | _ => exact expr_differ (by simp [Expr.tag])

theorem hashExprs_separates : (xs ys : List Expr) → xs.length = ys.length →
    Expr.AddressableAll xs → Expr.AddressableAll ys →
    Separates (Expr.canonicalAll xs = Expr.canonicalAll ys)
      (hashExprsWithLiterals xs) (hashExprsWithLiterals ys) (exprsExtents xs) (exprsExtents ys)
  | [], [], _, _, _ => Separates.nil.imp fun _ => rfl
  | x :: xs, y :: ys, hl, hx, hy => by
    have h := (hashExpr_separates x y hx.1 hy.1).append
      fun _ => hashExprs_separates xs ys (by simpa using hl) hx.2 hy.2
    exact h.imp fun h => congrArg₂ _ h.1 h.2

end

/-! ## Separation of plans -/

theorem aggKind_separates (a b : AggKind) :
    Separates (a = b) (str a.asStr) (str b.asStr) ([] : List ℕ) [] := by
  apply named_separates
  · intro a
    cases a <;> decide
  · intro a b
    cases a <;> cases b <;> simp [AggKind.asStr]

theorem joinKind_separates (a b : JoinKind) :
    Separates (a = b) (str a.asStr) (str b.asStr) ([] : List ℕ) [] := by
  apply named_separates
  · intro a
    cases a <;> decide
  · intro a b
    cases a <;> cases b <;> simp [JoinKind.asStr]

theorem sortKey_separates (a b : SortKey) :
    Separates (a = b) (str a.field ++ [a.descending.toUInt8]) (str b.field ++ [b.descending.toUInt8])
      (zeros a.field) (zeros b.field) := by
  have h := (str_separates a.field b.field).append fun _ => bool_separates a.descending b.descending
  simp only [List.append_nil] at h
  apply h.imp
  intro h
  cases a
  cases b
  simpa using h

theorem aggField_separates (a b : Agg) :
    Separates (a.field = b.field) (str (aggField a)) (str (aggField b))
      ([if a.field.isSome then 1 else 0] ++ zeros (aggField a))
      ([if b.field.isSome then 1 else 0] ++ zeros (aggField b)) := by
  have h := (Separates.extent (α := UInt8) (if a.field.isSome then 1 else 0)
    (if b.field.isSome then 1 else 0)).append fun _ => str_separates (aggField a) (aggField b)
  apply h.imp
  rintro ⟨hs, hf⟩
  unfold aggField at hf
  cases ha : a.field with
  | none => cases hb : b.field <;> simp [ha, hb] at hs ⊢
  | some f =>
    cases hb : b.field with
    | none => simp [ha, hb] at hs
    | some g => simpa [ha, hb] using hf

theorem agg_separates (a b : Agg) :
    Separates (a = b) (str a.kind.asStr ++ str (aggField a) ++ str a.output)
      (str b.kind.asStr ++ str (aggField b) ++ str b.output) (aggExtents a) (aggExtents b) := by
  have h := ((aggKind_separates a.kind b.kind).append fun _ => aggField_separates a b).append
    fun _ => str_separates a.output b.output
  apply h.imp
  rintro ⟨⟨hk, hf⟩, ho⟩
  cases a
  cases b
  simp_all

theorem recordId_separates (a b : RecordId) :
    Separates (a = b) (leBytes 8 a) (leBytes 8 b) ([] : List ℕ) [] :=
  (leBytes_separates a.isLt b.isLt).imp Fin.ext

/-- A list written without its length, which the extents supply. -/
theorem uncounted_separates {γ : Type} {w : γ → Bytes} {e : γ → List ℕ}
    (h : ∀ a b, Separates (a = b) (w a) (w b) (e a) (e b)) (xs ys : List γ) :
    Separates (xs = ys) (xs.flatMap w) (ys.flatMap w)
      ([xs.length] ++ xs.flatMap e) ([ys.length] ++ ys.flatMap e) :=
  ((Separates.extent xs.length ys.length).append fun hl => Separates.flatMap h xs ys hl).imp And.right

theorem name_clean (op : LogicalOp) : 0 ∉ utf8 op.name := by
  cases op <;> simp only [LogicalOp.name] <;> decide

theorem hashOp_name (op : LogicalOp) : ∃ rest, hashOpWithLiterals op = str op.name ++ rest := by
  cases op <;> simp [hashOpWithLiterals, LogicalOp.name, List.append_assoc]

theorem op_differ {P : Prop} {k m : List ℕ} {x y : LogicalOp} (h : x.name ≠ y.name) :
    Separates P (hashOpWithLiterals x) (hashOpWithLiterals y) k m := by
  apply impossible
  intro r r' hs
  obtain ⟨a, ha⟩ := hashOp_name x
  obtain ⟨b, hb⟩ := hashOp_name y
  rw [ha, hb, List.append_assoc, List.append_assoc] at hs
  exact h (tag_separates (name_clean x) (name_clean y) _ _ ([] : List ℕ) [] hs rfl).1

theorem hashOp_separates (x y : LogicalOp) (hx : x.Addressable) (hy : y.Addressable) :
    Separates (x.canonical = y.canonical) (hashOpWithLiterals x) (hashOpWithLiterals y)
      (extents x) (extents y) := by
  induction x generalizing y with
  | getById c i =>
    cases y with
    | getById d j =>
      have h := ((str_separates c d).append fun _ => recordId_separates i j).append
        fun _ => same (β := ℕ) (usize 0)
      simp only [hashOpWithLiterals, List.append_assoc, List.append_nil] at h ⊢
      exact common _ (h.imp fun h => by rw [h.1.1, h.1.2])
    | _ => exact op_differ (by simp [LogicalOp.name])
  | getByIds c is =>
    cases y with
    | getByIds d js =>
      have h := (str_separates c d).append fun _ => (usize_separates (β := ℕ) hx hy).append
        fun hl => (Separates.flatMap (e := fun _ => ([] : List ℕ)) recordId_separates is js hl).append
          fun _ => same (β := ℕ) (usize 0)
      simp only [hashOpWithLiterals, List.append_assoc, List.flatMap_eq_nil_iff.mpr fun _ _ => rfl, List.append_nil] at h ⊢
      exact common _ (h.imp fun h => by rw [h.1, h.2.2.1])
    | _ => exact op_differ (by simp [LogicalOp.name])
  | scan c =>
    cases y with
    | scan d =>
      have h := (str_separates c d).append fun _ => same (β := ℕ) (usize 0)
      simp only [hashOpWithLiterals, List.append_assoc, List.append_nil] at h ⊢
      exact common _ (h.imp fun h => by rw [h.1])
    | _ => exact op_differ (by simp [LogicalOp.name])
  | filter x p ih =>
    cases y with
    | filter y q =>
      have h := (hashExpr_separates p q hx.1 hy.1).append
        fun _ => common (usize 1) (ih y hx.2 hy.2)
      simp only [hashOpWithLiterals, List.append_assoc]
      exact common _ (h.imp fun h => by
        rw [LogicalOp.canonical, LogicalOp.canonical, h.1, h.2])
    | _ => exact op_differ (by simp [LogicalOp.name])
  | project x fs ih =>
    cases y with
    | project y gs =>
      have h := (uncounted_separates str_separates fs gs).append
        fun _ => common (usize 1) (ih y hx hy)
      simp only [hashOpWithLiterals, List.append_assoc]
      exact common _ (h.imp fun h => by
        rw [LogicalOp.canonical, LogicalOp.canonical, h.1, h.2])
    | _ => exact op_differ (by simp [LogicalOp.name])
  | sort x ks ih =>
    cases y with
    | sort y ls =>
      have h := (uncounted_separates sortKey_separates ks ls).append
        fun _ => common (usize 1) (ih y hx hy)
      simp only [hashOpWithLiterals, List.append_assoc]
      exact common _ (h.imp fun h => by
        rw [LogicalOp.canonical, LogicalOp.canonical, h.1, h.2])
    | _ => exact op_differ (by simp [LogicalOp.name])
  | limit x n ih =>
    cases y with
    | limit y m =>
      have h := (usize_separates (β := ℕ) n.toNat_lt m.toNat_lt).append
        fun _ => common (usize 1) (ih y hx hy)
      simp only [hashOpWithLiterals, List.append_assoc]
      exact common _ (h.imp fun h => by
        rw [LogicalOp.canonical, LogicalOp.canonical, UInt64.toNat_inj.mp h.1, h.2])
    | _ => exact op_differ (by simp [LogicalOp.name])
  | aggregate x gs as ih =>
    cases y with
    | aggregate y hs bs =>
      have h := (uncounted_separates str_separates gs hs).append
        fun _ => (uncounted_separates agg_separates as bs).append
          fun _ => common (usize 1) (ih y hx hy)
      simp only [hashOpWithLiterals, extents, List.append_assoc] at h ⊢
      exact common _ (h.imp fun h => by
        rw [LogicalOp.canonical, LogicalOp.canonical, h.1, h.2.1, h.2.2])
    | _ => exact op_differ (by simp [LogicalOp.name])
  | join a b k on iha ihb =>
    cases y with
    | join c d l at' =>
      have h := (joinKind_separates k l).append fun _ => (str_separates on.1 at'.1).append
        fun _ => (str_separates on.2 at'.2).append fun _ => common (usize 2)
          ((iha c hx.1 hy.1).append fun _ => ihb d hx.2 hy.2)
      simp only [hashOpWithLiterals, extents, List.append_assoc, List.nil_append] at h ⊢
      exact common _ (h.imp fun h => by
        rw [LogicalOp.canonical, LogicalOp.canonical, h.1, Prod.ext h.2.1 h.2.2.1, h.2.2.2.1,
          h.2.2.2.2])
    | _ => exact op_differ (by simp [LogicalOp.name])

/-! ## Keys separate plans of equal extents -/

mutual

theorem valueExtents_canonical : (v : Value) → valueExtents v.canonical = valueExtents v
  | .null | .bool _ | .i64 _ | .u64 _ | .f64 _ | .decimal .. | .timestamp _ | .str _ | .bytes _ => rfl
  | .list items => valuesExtents_canonical items
  | .map m => entriesExtents_canonical m

theorem valuesExtents_canonical : (vs : List Value) →
    valuesExtents (Value.canonicalItems vs) = valuesExtents vs
  | [] => rfl
  | v :: vs => congrArg₂ _ (valueExtents_canonical v) (valuesExtents_canonical vs)

theorem entriesExtents_canonical : (es : List (String × Value)) →
    entriesExtents (Value.canonicalEntries es) = entriesExtents es
  | [] => rfl
  | (k, v) :: es =>
    congrArg₂ (zeros k ++ · ++ ·) (valueExtents_canonical v) (entriesExtents_canonical es)

end

mutual

theorem exprExtents_canonical : (e : Expr) → exprExtents e.canonical = exprExtents e
  | .literal v => valueExtents_canonical v
  | .field _ => rfl
  | .compare _ a b | .arith _ a b =>
    congrArg₂ _ (exprExtents_canonical a) (exprExtents_canonical b)
  | .and parts | .or parts => exprsExtents_canonical parts
  | .not a | .isNull a | .isNotNull a => exprExtents_canonical a
  | .within a parts => congrArg₂ _ (exprExtents_canonical a) (exprsExtents_canonical parts)
  | .like a pattern => congrArg (· ++ zeros pattern) (exprExtents_canonical a)

theorem exprsExtents_canonical : (es : List Expr) →
    exprsExtents (Expr.canonicalAll es) = exprsExtents es
  | [] => rfl
  | e :: es => congrArg₂ _ (exprExtents_canonical e) (exprsExtents_canonical es)

end

theorem extents_canonical (op : LogicalOp) : extents op.canonical = extents op := by
  induction op with
  | getById | getByIds | scan => rfl
  | filter input p ih => exact congrArg₂ _ (exprExtents_canonical p) ih
  | project input fs ih | sort input fs ih | limit input fs ih =>
    simp only [LogicalOp.canonical, extents, ih]
  | aggregate input gs as ih => simp only [LogicalOp.canonical, extents, ih]
  | join a b k on iha ihb => simp only [LogicalOp.canonical, extents, iha, ihb]

/-- Two plans that feed the same bytes are the same up to canonical floats
exactly when their extents agree. -/
theorem QueryKey.separates_iff (x y : LogicalOp) (hx : x.Addressable) (hy : y.Addressable)
    (h : hashOpWithLiterals x = hashOpWithLiterals y) :
    x.canonical = y.canonical ↔ extents x = extents y := by
  constructor
  · intro hc
    rw [← extents_canonical x, hc, extents_canonical y]
  · intro he
    exact (hashOp_separates x y hx hy [] [] [] [] (by rw [h]) (by rw [he])).1

def whereZero (z : F64) : LogicalOp :=
  .filter (.scan "t") (.compare .eq (.field "a") (.literal (.f64 z)))

theorem QueryKey.separates_zeros :
    (whereZero ⟨0⟩).canonical = (whereZero ⟨0x8000000000000000⟩).canonical ↔
      extents (whereZero ⟨0⟩) = extents (whereZero ⟨0x8000000000000000⟩) :=
  QueryKey.separates_iff _ _ ⟨⟨trivial, trivial⟩, trivial⟩ ⟨⟨trivial, trivial⟩, trivial⟩
    (by decide)

/-- Grouping by three fields reads as one aggregate without groups. -/
theorem QueryKey.groups_as_aggregate :
    ¬ ∀ x y : LogicalOp, hashOpWithLiterals x = hashOpWithLiterals y → x.canonical = y.canonical := by
  intro h
  have h := h (.aggregate (.scan "t") ["sum", "x", "total"] [])
    (.aggregate (.scan "t") [] [⟨.sum, some "x", "total"⟩]) (by decide)
  simp [LogicalOp.canonical] at h

end Adabt.Ir
