import Adabt.Core.Arith
import Adabt.Core.Hash
import Adabt.Storage.ValueCodec

/-! # Borrowed values

A decoded value that leaves its text in the buffer. The reader of it takes the bytes the
owned reader takes. Its equality goes by the form of a number, and that of owned values
by the number. -/

set_option autoImplicit false

namespace Adabt.Storage
open Adabt.Core Adabt.Library

inductive ValueRef where
  | null
  | bool (b : Bool)
  | i64 (n : Int64)
  | u64 (n : UInt64)
  | f64 (f : F64)
  | decimal (units : BitVec 128) (scale : UInt8)
  | timestamp (t : Int64)
  | str (s : String)
  | bytes (b : Bytes)
  | list (items : List ValueRef)
  | map (m : List (String × ValueRef))
  deriving Repr

namespace ValueRef

mutual

/-- Take ownership. -/
def intoValue : ValueRef → Value
  | null => .null
  | bool b => .bool b
  | i64 n => .i64 n
  | u64 n => .u64 n
  | f64 f => .f64 f
  | decimal units scale => .decimal units scale
  | timestamp t => .timestamp t
  | str s => .str s
  | bytes b => .bytes b
  | list items => .list (intoValues items)
  | map m => .map (intoEntries m)

def intoValues : List ValueRef → List Value
  | [] => []
  | r :: rs => intoValue r :: intoValues rs

def intoEntries : List (String × ValueRef) → List (String × Value)
  | [] => []
  | (k, r) :: es => (k, intoValue r) :: intoEntries es

end

mutual

/-- `r == v`, by variant. -/
def eqValue : ValueRef → Value → Bool
  | null, .null => true
  | bool a, .bool b => a == b
  | i64 a, .i64 b => a == b
  | u64 a, .u64 b => a == b
  | f64 a, .f64 b => F64.beq a b
  | decimal ua sa, .decimal ub sb => ua == ub && sa == sb
  | timestamp a, .timestamp b => a == b
  | str a, .str b => a == b
  | bytes a, .bytes b => a == b
  | list a, .list b => a.length == b.length && eqItems a b
  | map a, .map b => a.length == b.length && eqEntries a b
  | _, _ => false

/-- Over the pairs there are. -/
def eqItems : List ValueRef → List Value → Bool
  | r :: rs, v :: vs => eqValue r v && eqItems rs vs
  | _, _ => true

def eqEntries : List (String × ValueRef) → List (String × Value) → Bool
  | (ka, r) :: rs, (kb, v) :: vs => (ka == kb && eqValue r v) && eqEntries rs vs
  | _, _ => true

end

theorem intoValues_eq (rs : List ValueRef) : intoValues rs = rs.map intoValue := by
  induction rs with
  | nil => rfl
  | cons r rs ih => rw [intoValues, ih, List.map_cons]

theorem intoEntries_eq (es : List (String × ValueRef)) :
    intoEntries es = es.map fun e => (e.1, e.2.intoValue) := by
  induction es with
  | nil => rfl
  | cons e es ih => rw [intoEntries, ih, List.map_cons]

end ValueRef

/-- Every map lists its keys in ascending order. -/
abbrev OrdValueRef := {r : ValueRef // r.intoValue.Ordered}

namespace OrdValueRef

def owned (r : OrdValueRef) : OrdValue := ⟨r.1.intoValue, r.2⟩

def ofList (items : List OrdValueRef) : OrdValueRef :=
  ⟨.list (items.map Subtype.val), by
    have h := (ordList (items.map owned)).2
    have hitems : (items.map owned).map Subtype.val = ValueRef.intoValues (items.map Subtype.val) := by
      rw [ValueRef.intoValues_eq, List.map_map, List.map_map]
      rfl
    rw [ValueRef.intoValue, ← hitems]
    exact h⟩

def ofMap (m : OrdMap String OrdValueRef) : OrdValueRef :=
  ⟨.map (m.entries.map fun e => (e.1, e.2.1)), by
    have h := (ordMap (m.mapVal fun _ => owned)).2
    have hentries : rawEntries (m.mapVal fun _ => owned) =
        ValueRef.intoEntries (m.entries.map fun e => (e.1, e.2.1)) := by
      rw [ValueRef.intoEntries_eq, rawEntries, OrdMap.mapVal, List.map_map, List.map_map]
      rfl
    rw [ValueRef.intoValue, ← hentries]
    exact h⟩

theorem owned_ofList (items : List OrdValueRef) : (ofList items).owned = ordList (items.map owned) := by
  refine Subtype.ext ?_
  change ValueRef.intoValue (.list (items.map Subtype.val)) = .list ((items.map owned).map Subtype.val)
  rw [ValueRef.intoValue, ValueRef.intoValues_eq, List.map_map, List.map_map]
  rfl

theorem owned_ofMap (m : OrdMap String OrdValueRef) :
    (ofMap m).owned = ordMap (m.mapVal fun _ => owned) := by
  refine Subtype.ext ?_
  change ValueRef.intoValue (.map (m.entries.map fun e => (e.1, e.2.1))) =
    .map (rawEntries (m.mapVal fun _ => owned))
  rw [ValueRef.intoValue, ValueRef.intoEntries_eq, rawEntries, OrdMap.mapVal, List.map_map,
    List.map_map]
  rfl

end OrdValueRef

/-! ## The reader -/

/-! What the standard library says of a text that is not UTF-8. -/

def charWidth (b : UInt8) : ℕ :=
  if b < 0x80 then 1 else if b < 0xC2 then 0 else if b < 0xE0 then 2 else if b < 0xF0 then 3
  else if b < 0xF5 then 4 else 0

/-- Whether a byte may stand this far behind the first one. -/
def continues (first : UInt8) (k : ℕ) (next : UInt8) : Bool :=
  if k = 0 ∧ first = 0xE0 then 0xA0 ≤ next && next ≤ 0xBF
  else if k = 0 ∧ first = 0xED then 0x80 ≤ next && next ≤ 0x9F
  else if k = 0 ∧ first = 0xF0 then 0x90 ≤ next && next ≤ 0xBF
  else if k = 0 ∧ first = 0xF4 then 0x80 ≤ next && next ≤ 0x8F
  else 0x80 ≤ next && next ≤ 0xBF

/-- How many bytes are wrong at the front, `none` for a text that ends too early. -/
def wrongLength (first : UInt8) (rest : Bytes) : Option (Option ℕ) :=
  if charWidth first = 0 then some (some 1)
  else (List.range (charWidth first - 1)).findSome? fun k =>
    match rest[k]? with
    | none => some none
    | some next => if continues first k next then none else some (some (k + 1))

/-- `skip` bytes are still to come of the character before. -/
def utf8Error (skip index : ℕ) : Bytes → String
  | [] => ""
  | b :: rest =>
    if 0 < skip then utf8Error (skip - 1) (index + 1) rest
    else match wrongLength b rest with
      | none => utf8Error (charWidth b - 1) (index + 1) rest
      | some none => "incomplete utf-8 byte sequence from index " ++ toString index
      | some (some n) =>
        "invalid utf-8 sequence of " ++ toString n ++ " bytes from index " ++ toString index

example : utf8Error 0 0 [0x61, 0xE2, 0x82, 0x28] = "invalid utf-8 sequence of 2 bytes from index 1" := by
  decide

/-! The reader itself. -/

def textRef (what : String) (raw : Bytes) : Except Error String :=
  match decodeUtf8 raw with
  | some s => .ok s
  | none => .error (.corruption (what ++ utf8Error 0 0 raw))

def readTextRef (n : ℕ) (what : String) : Reader String := fun c => do
  let (raw, c) ← c.take n
  let s ← textRef what raw
  return (s, c)

def readItemsRef (read : Reader OrdValueRef) : ℕ → Reader (List OrdValueRef)
  | 0, c => .ok ([], c)
  | n + 1, c => do
    let (r, c) ← read c
    let (rs, c) ← readItemsRef read n c
    return (r :: rs, c)

def readEntriesRef (read : Reader OrdValueRef) :
    ℕ → OrdMap String OrdValueRef → Reader (OrdMap String OrdValueRef)
  | 0, m, c => .ok (m, c)
  | n + 1, m, c => do
    let (klen, c) ← c.varint
    let (k, c) ← readTextRef klen.toNat "record map key is invalid UTF-8: " c
    let (r, c) ← read c
    readEntriesRef read n (m.insert k r) c

/-- Read one borrowed value with `left` levels of nesting still allowed. -/
def readTlvRefAt : ℕ → Reader OrdValueRef
  | 0, _ => .error tooDeep
  | left + 1, c => do
    let (t, c) ← c.u8
    if t = Tag.null then return (⟨.null, trivial⟩, c)
    else if t = Tag.false then return (⟨.bool false, trivial⟩, c)
    else if t = Tag.true then return (⟨.bool true, trivial⟩, c)
    else if t = Tag.i64 then do
      let (n, c) ← c.varint
      return (⟨.i64 (unzigzag n), trivial⟩, c)
    else if t = Tag.u64 then do
      let (n, c) ← c.varint
      return (⟨.u64 n, trivial⟩, c)
    else if t = Tag.f64 then do
      let (n, c) ← c.u64
      return (⟨.f64 ⟨n⟩, trivial⟩, c)
    else if t = Tag.str then do
      let (n, c) ← c.varint
      let (s, c) ← readTextRef n.toNat "record holds invalid UTF-8: " c
      return (⟨.str s, trivial⟩, c)
    else if t = Tag.bytes then do
      let (n, c) ← c.varint
      let (b, c) ← c.take n.toNat
      return (⟨.bytes b, trivial⟩, c)
    else if t = Tag.list then do
      let (n, c) ← c.varint
      ensure (n.toNat ≤ c.remaining) (tooMany "list" "items" n.toNat c)
      let (items, c) ← readItemsRef (readTlvRefAt left) n.toNat c
      return (.ofList items, c)
    else if t = Tag.map then do
      let (n, c) ← c.varint
      ensure (n.toNat ≤ c.remaining) (tooMany "map" "entries" n.toNat c)
      let (m, c) ← readEntriesRef (readTlvRefAt left) n.toNat ∅ c
      return (.ofMap m, c)
    else if t = Tag.decimal then do
      let (scale, c) ← c.u8
      let (b, c) ← c.take 16
      return (⟨.decimal (BitVec.ofNat 128 (ofLeBytes b)) scale, trivial⟩, c)
    else if t = Tag.timestamp then do
      let (n, c) ← c.u64
      return (⟨.timestamp n.toInt64, trivial⟩, c)
    else .error (.corruption ("unknown value tag " ++ toString t.toNat ++ " in record"))

def readTlvRef (depth : ℕ) : Reader OrdValueRef := readTlvRefAt (maxDepth + 1 - depth)

/-- The value and the number of bytes it took. -/
def decodeValueRef (buf : Bytes) : Except Error (OrdValueRef × ℕ) := do
  let (r, c) ← readTlvRef 0 (.new buf)
  return (r, c.pos)

/-! ## The two readers -/

def AgreeAt {α β : Type} (own : β → α) (x : Reader α) (y : Reader β) : Prop :=
  ∀ c, Agree (Prod.map own id) (x c) (y c)

theorem AgreeAt.bind {α β γ δ : Type} {own : β → α} {own' : δ → γ} {x : Reader α} {y : Reader β}
    {f : α × Cursor → Except Error (γ × Cursor)} {g : β × Cursor → Except Error (δ × Cursor)}
    (hx : AgreeAt own x y) (hf : ∀ b c, Agree (Prod.map own' id) (f (own b, c)) (g (b, c)))
    (c : Cursor) : Agree (Prod.map own' id) (x c >>= f) (y c >>= g) :=
  (hx c).bind fun r => hf r.1 r.2

theorem agreeAt_text (n : ℕ) (what : String) :
    AgreeAt id (Cursor.string n) (readTextRef n what) := by
  intro c
  refine Agree.same fun r => ?_
  dsimp only
  unfold textRef
  cases decodeUtf8 r.1 with
  | some s => exact agree_ok rfl
  | none => exact agree_error _ _

theorem agreeAt_items {old : Reader OrdValue} {read : Reader OrdValueRef}
    (hread : AgreeAt OrdValueRef.owned old read) (n : ℕ) :
    AgreeAt (List.map OrdValueRef.owned) (readItems old n) (readItemsRef read n) := by
  induction n with
  | zero => exact fun c => agree_ok rfl
  | succ n ih =>
    refine hread.bind fun r c => ?_
    refine ih.bind (fun rs c => ?_) c
    exact agree_ok rfl

theorem mapVal_insert (m : OrdMap String OrdValueRef) (k : String) (r : OrdValueRef) :
    (m.insert k r).mapVal (fun _ => OrdValueRef.owned) =
      (m.mapVal fun _ => OrdValueRef.owned).insert k r.owned := by
  refine OrdMap.ext_get fun k' => ?_
  rw [OrdMap.get_mapVal, OrdMap.get_insert, OrdMap.get_insert, OrdMap.get_mapVal]
  split_ifs <;> rfl

theorem agreeAt_entries {old : Reader OrdValue} {read : Reader OrdValueRef}
    (hread : AgreeAt OrdValueRef.owned old read) (n : ℕ) (m : OrdMap String OrdValueRef) :
    AgreeAt (fun m => m.mapVal fun _ => OrdValueRef.owned)
      (readEntries old n (m.mapVal fun _ => OrdValueRef.owned)) (readEntriesRef read n m) := by
  induction n generalizing m with
  | zero => exact fun c => agree_ok rfl
  | succ n ih =>
    refine fun c => Agree.same fun klen => ?_
    refine (agreeAt_text klen.1.toNat _).bind (fun k c => ?_) klen.2
    refine hread.bind (fun r c => ?_) c
    have h := ih (m.insert k r) c
    rw [mapVal_insert] at h
    exact h

theorem agreeAt_readTlv (left : ℕ) : AgreeAt OrdValueRef.owned (readTlvAt left) (readTlvRefAt left) := by
  induction left with
  | zero => exact fun c => agree_error _ _
  | succ left ih =>
    refine fun c => Agree.same fun t => ?_
    -- the two take these two tags at different places
    by_cases hdecimal : t.1 = Tag.decimal
    · dsimp only
      rw [hdecimal]
      exact Agree.same fun scale => Agree.same fun b => agree_ok rfl
    by_cases htimestamp : t.1 = Tag.timestamp
    · dsimp only
      rw [htimestamp]
      exact Agree.same fun n => agree_ok rfl
    dsimp only
    rw [if_neg hdecimal, if_neg htimestamp, if_neg hdecimal, if_neg htimestamp]
    refine .ite (agree_ok rfl) (.ite (agree_ok rfl) (.ite (agree_ok rfl) ?_))
    refine .ite (Agree.same fun n => agree_ok rfl) (.ite (Agree.same fun n => agree_ok rfl) ?_)
    refine .ite (Agree.same fun n => agree_ok rfl) ?_
    refine .ite (Agree.same fun n => ?_) (.ite (Agree.same fun n => Agree.same fun b => agree_ok rfl) ?_)
    · refine (agreeAt_text n.1.toNat _).bind (fun s c => ?_) n.2
      exact agree_ok rfl
    refine .ite (Agree.same fun n => Agree.same fun _ => ?_)
      (.ite (Agree.same fun n => Agree.same fun _ => ?_) (agree_error _ _))
    · refine (agreeAt_items ih n.1.toNat).bind (fun items c => ?_) n.2
      exact agree_ok (congrArg (·, c) (OrdValueRef.owned_ofList items))
    · refine (agreeAt_entries ih n.1.toNat ∅).bind (fun m c => ?_) n.2
      exact agree_ok (congrArg (·, c) (OrdValueRef.owned_ofMap m))

/-- Both take the same bytes to the same value, or neither takes any. -/
theorem decodeValueRef_agrees (buf : Bytes) :
    Agree (Prod.map OrdValueRef.owned id) (decodeValue buf) (decodeValueRef buf) := by
  refine (agreeAt_readTlv (maxDepth + 1) (.new buf)).bind fun r => ?_
  exact agree_ok rfl

/-! ## The two equalities -/

namespace ValueRef

def isNumber (r : ValueRef) : Bool := r.intoValue.rank == 2

mutual

/-- Of the numbers that stand at one place, both are of one type and scale, and neither is
a NaN. -/
def sameForm : ValueRef → Value → Bool
  | i64 _, .i64 _ => true
  | u64 _, .u64 _ => true
  | f64 a, .f64 b => !a.isNan && !b.isNan
  | decimal _ sa, .decimal _ sb => sa == sb
  | list a, .list b => sameForms a b
  | map a, .map b => sameFormEntries a b
  | r, v => !(r.isNumber && v.rank == 2)

def sameForms : List ValueRef → List Value → Bool
  | r :: rs, v :: vs => sameForm r v && sameForms rs vs
  | _, _ => true

def sameFormEntries : List (String × ValueRef) → List (String × Value) → Bool
  | (_, r) :: rs, (_, v) :: vs => sameForm r v && sameFormEntries rs vs
  | _, _ => true

end

open Value

/-- Units of one scale are compared as they are. -/
theorem eqv_units {a b : Value} {u u' : ℤ} {scale : UInt8} (ha : a.exactUnits = some (u, scale))
    (hb : b.exactUnits = some (u', scale)) (hu : -(2 ^ 127) ≤ u ∧ u < 2 ^ 127)
    (hu' : -(2 ^ 127) ≤ u' ∧ u' < 2 ^ 127) : a.Eqv b ↔ u = u' := by
  have hlift : ∀ n : ℤ, -(2 ^ 127) ≤ n ∧ n < 2 ^ 127 →
      ∃ x : BitVec 128, lift scale n scale = some x ∧ x.toInt = n := by
    intro n hn
    have hchecked : lift scale n scale = checkedI128 n := by
      rw [lift, Nat.sub_self, checkedPow10, if_pos (by decide)]
      change checkedI128 (n * 1) = _
      rw [Int.mul_one]
    refine ⟨BitVec.ofInt 128 n, ?_, ?_⟩
    · rw [hchecked, checkedI128, if_pos hn]
    · exact checkedI128_toInt (by rw [checkedI128, if_pos hn])
  obtain ⟨x, hx, hxu⟩ := hlift u hu
  obtain ⟨y, hy, hyu⟩ := hlift u' hu'
  have hmax : max scale scale = scale := by
    change (if scale ≤ scale then scale else scale) = scale
    split <;> rfl
  have hexact : cmpExact a b = some (compare u u') := by
    rw [cmpExact, ha, hb]
    dsimp only [Option.bind_eq_bind, Option.bind_some]
    rw [hmax, hx, hy, ← hxu, ← hyu]
    rfl
  have hrank := rank_of_comparable (a := a) (b := b) (by rw [Comparable, hexact]; rfl)
  rw [Eqv, cmp_numbers hrank.1 hrank.2, cmpNumeric, hexact, Option.getD_some, compare_eq_iff_eq]

theorem eqValue_apart {r : ValueRef} {v : Value} (he : r.eqValue v = false)
    (h : (r.intoValue.rank == v.rank && r.sameForm v) = false) :
    r.eqValue v = true ↔ r.intoValue.Eqv v ∧ r.sameForm v = true := by
  rw [he]
  constructor
  · intro hfalse
    cases hfalse
  · rintro ⟨heqv, hform⟩
    rw [rank_eq_of_cmp heqv, hform, beq_self_eq_true] at h
    cases h

theorem f64_beq_iff (a b : F64) :
    F64.beq a b = true ↔ Eqv (.f64 a) (.f64 b) ∧ (!a.isNan && !b.isNan) = true := by
  have heqv : Eqv (.f64 a) (.f64 b) ↔ a.canon = b.canon := compare_eq_iff_eq
  rw [heqv, F64.beq, Bool.and_eq_true, decide_eq_true_eq, and_comm]

theorem decimal_eq_iff (ua ub : BitVec 128) (sa sb : UInt8) :
    (ua == ub && sa == sb) = true ↔
      Eqv (.decimal ua sa) (.decimal ub sb) ∧ (sa == sb) = true := by
  have hrange : ∀ u : BitVec 128, -(2 ^ 127) ≤ u.toInt ∧ u.toInt < 2 ^ 127 :=
    fun u => ⟨BitVec.le_toInt u, BitVec.toInt_lt⟩
  rw [Bool.and_eq_true, beq_iff_eq, beq_iff_eq]
  constructor
  · rintro ⟨rfl, rfl⟩
    exact ⟨.refl _, rfl⟩
  · rintro ⟨heqv, rfl⟩
    exact ⟨BitVec.toInt_inj.mp ((eqv_units rfl rfl (hrange ua) (hrange ub)).mp heqv), rfl⟩

mutual

/-- Borrowed equality is that of owned values of one form. -/
theorem eqValue_iff : (r : ValueRef) → (v : Value) →
    (r.eqValue v = true ↔ r.intoValue.Eqv v ∧ r.sameForm v = true)
  | null, v => by
    cases v with
    | null => exact ⟨fun _ => ⟨rfl, rfl⟩, fun _ => rfl⟩
    | _ => exact eqValue_apart rfl rfl
  | bool a, v => by
    cases v with
    | bool b => cases a <;> cases b <;> decide
    | _ => exact eqValue_apart rfl rfl
  | i64 a, v => by
    cases v with
    | i64 b =>
      have hrange : ∀ n : Int64, -(2 ^ 127) ≤ n.toInt ∧ n.toInt < 2 ^ 127 := fun n => by
        have hlo := n.le_toInt
        have hhi := n.toInt_lt
        omega
      have heqv := eqv_units (a := .i64 a) (b := .i64 b) rfl rfl (hrange a) (hrange b)
      rw [eqValue, intoValue, sameForm, heqv, beq_iff_eq, Int64.toInt_inj]
      exact (and_iff_left rfl).symm
    | _ => exact eqValue_apart rfl rfl
  | u64 a, v => by
    cases v with
    | u64 b =>
      have hrange : ∀ n : UInt64, -(2 ^ 127) ≤ (n.toNat : ℤ) ∧ (n.toNat : ℤ) < 2 ^ 127 := fun n => by
        have hlt := n.toNat_lt
        omega
      have heqv := eqv_units (a := .u64 a) (b := .u64 b) rfl rfl (hrange a) (hrange b)
      rw [eqValue, intoValue, sameForm, heqv, beq_iff_eq, Int.natCast_inj, UInt64.toNat_inj]
      exact (and_iff_left rfl).symm
    | _ => exact eqValue_apart rfl rfl
  | f64 a, v => by
    cases v with
    | f64 b => exact f64_beq_iff a b
    | _ => exact eqValue_apart rfl rfl
  | decimal ua sa, v => by
    cases v with
    | decimal ub sb => exact decimal_eq_iff ua ub sa sb
    | _ => exact eqValue_apart rfl rfl
  | timestamp a, v => by
    cases v with
    | timestamp b =>
      have heqv : Eqv (.timestamp a) (.timestamp b) ↔ a.toInt = b.toInt := compare_eq_iff_eq
      rw [eqValue, intoValue, heqv, beq_iff_eq, Int64.toInt_inj]
      exact (and_iff_left rfl).symm
    | _ => exact eqValue_apart rfl rfl
  | str a, v => by
    cases v with
    | str b =>
      have heqv : Eqv (.str a) (.str b) ↔ a = b := compare_eq_iff_eq
      rw [eqValue, intoValue, heqv, beq_iff_eq]
      exact (and_iff_left rfl).symm
    | _ => exact eqValue_apart rfl rfl
  | bytes a, v => by
    cases v with
    | bytes b =>
      rw [eqValue, intoValue, beq_iff_eq]
      constructor
      · rintro rfl
        exact ⟨.refl _, rfl⟩
      · exact fun h => cmpBytes_eq h.1
    | _ => exact eqValue_apart rfl rfl
  | list rs, v => by
    cases v with
    | list vs =>
      rw [eqValue, Bool.and_eq_true, beq_iff_eq]
      exact eqItems_iff rs vs
    | _ => exact eqValue_apart rfl rfl
  | map rs, v => by
    cases v with
    | map vs =>
      rw [eqValue, Bool.and_eq_true, beq_iff_eq]
      exact eqEntries_iff rs vs
    | _ => exact eqValue_apart rfl rfl

theorem eqItems_iff : (rs : List ValueRef) → (vs : List Value) →
    (rs.length = vs.length ∧ eqItems rs vs = true ↔
      cmpList (intoValues rs) vs = .eq ∧ sameForms rs vs = true)
  | [], [] => ⟨fun _ => ⟨rfl, rfl⟩, fun _ => ⟨rfl, rfl⟩⟩
  | [], v :: vs => ⟨fun h => absurd h.1 (Nat.ne_of_beq_eq_false rfl), fun h => by cases h.1⟩
  | r :: rs, [] => ⟨fun h => absurd h.1 (Nat.ne_of_beq_eq_false rfl), fun h => by cases h.1⟩
  | r :: rs, v :: vs => by
    have hr := eqValue_iff r v
    have hrs := eqItems_iff rs vs
    rw [intoValues, cmpList, Ordering.then_eq_eq, eqItems, sameForms, Bool.and_eq_true,
      Bool.and_eq_true, hr, List.length_cons, List.length_cons, Nat.add_right_cancel_iff]
    change _ ↔ (r.intoValue.Eqv v ∧ _) ∧ _
    tauto

theorem eqEntries_iff : (rs : List (String × ValueRef)) → (vs : List (String × Value)) →
    (rs.length = vs.length ∧ eqEntries rs vs = true ↔
      cmpEntries (intoEntries rs) vs = .eq ∧ sameFormEntries rs vs = true)
  | [], [] => ⟨fun _ => ⟨rfl, rfl⟩, fun _ => ⟨rfl, rfl⟩⟩
  | [], v :: vs => ⟨fun h => absurd h.1 (Nat.ne_of_beq_eq_false rfl), fun h => by cases h.1⟩
  | r :: rs, [] => ⟨fun h => absurd h.1 (Nat.ne_of_beq_eq_false rfl), fun h => by cases h.1⟩
  | (j, r) :: rs, (k, v) :: vs => by
    have hr := eqValue_iff r v
    have hrs := eqEntries_iff rs vs
    rw [intoEntries, cmpEntries, Ordering.then_eq_eq, Ordering.then_eq_eq, compare_eq_iff_eq,
      eqEntries, sameFormEntries, Bool.and_eq_true, Bool.and_eq_true, Bool.and_eq_true, beq_iff_eq,
      hr, List.length_cons, List.length_cons, Nat.add_right_cancel_iff]
    change _ ↔ ((j = k ∧ r.intoValue.Eqv v) ∧ _) ∧ _
    tauto

end

end ValueRef

theorem filter_eq_iff {α : Type} (p q : α → Bool) (keys : List α) :
    keys.filter p = keys.filter q ↔ ∀ k ∈ keys, p k = q k := by
  constructor
  · intro h k hk
    have hmem : k ∈ keys.filter p ↔ k ∈ keys.filter q := by rw [h]
    rw [List.mem_filter, List.mem_filter] at hmem
    rw [Bool.eq_iff_iff]
    exact ⟨fun hp => (hmem.mp ⟨hk, hp⟩).2, fun hq => (hmem.mpr ⟨hk, hq⟩).2⟩
  · exact fun h => List.filter_congr h

/-- The readers agree on every buffer. The equalities agree unless equal numbers stand in two
forms, and so does what a probe of some keys finds. -/
theorem borrowed_agrees_iff (buf : Bytes) (used : ℕ) (r : OrdValueRef) (v : OrdValue)
    (keys : List OrdValueRef) :
    (decodeValue buf = .ok (v, used) ↔
      ∃ r, decodeValueRef buf = .ok (r, used) ∧ r.owned = v) ∧
    ((r.1.eqValue v.1 = true ↔ r.owned.1.Eqv v.1) ↔
      (r.owned.1.Eqv v.1 → r.1.sameForm v.1 = true)) ∧
    (keys.filter (fun r => r.1.eqValue v.1) = keys.filter (fun r => r.owned.1.Eqv v.1) ↔
      ∀ r ∈ keys, r.owned.1.Eqv v.1 → r.1.sameForm v.1 = true) := by
  have heq : ∀ r : OrdValueRef, (r.1.eqValue v.1 = true ↔ r.owned.1.Eqv v.1) ↔
      (r.owned.1.Eqv v.1 → r.1.sameForm v.1 = true) := by
    intro r
    rw [ValueRef.eqValue_iff]
    exact and_iff_left_iff_imp
  refine ⟨?_, heq r, ?_⟩
  · rw [decodeValueRef_agrees buf (v, used)]
    constructor
    · rintro ⟨⟨r, _⟩, hr, ⟨⟩⟩
      exact ⟨r, hr, rfl⟩
    · rintro ⟨r, hr, rfl⟩
      exact ⟨(r, used), hr, rfl⟩
  · rw [filter_eq_iff]
    refine forall₂_congr fun r _ => ?_
    rw [← heq, Bool.eq_iff_iff, decide_eq_true_eq]

/-- A one that is signed is a one that is not, but not when borrowed. -/
theorem signed_one_apart : ¬∀ (r : OrdValueRef) (v : OrdValue),
    r.1.eqValue v.1 = true ↔ r.owned.1.Eqv v.1 := by
  intro h
  have hone := (h ⟨.i64 1, trivial⟩ ⟨.u64 1, trivial⟩).mpr (by decide)
  cases hone

end Adabt.Storage
