import Adabt.Ir.Expr
import Adabt.Storage.TlvRoundTrip

/-! # The binary form of an expression

A partial index is persisted under a name that carries its condition: one tag
byte a node, then the operands, written in hexadecimal. Nesting is bounded on
the way in and on the way out. -/

set_option autoImplicit false

namespace Adabt.Engine
open Adabt.Core Adabt.Ir Adabt.Library Adabt.Storage

namespace ExprTag

def literal : UInt8 := 1
def field : UInt8 := 2
def compare : UInt8 := 3
def and : UInt8 := 4
def or : UInt8 := 5
def not : UInt8 := 6
def isNull : UInt8 := 7
def isNotNull : UInt8 := 8
def arith : UInt8 := 9
def within : UInt8 := 10
def like : UInt8 := 11

end ExprTag

/-- `MAX_DEPTH`. -/
def maxExprDepth : ℕ := 32

def cmpBits : CmpOp → UInt8
  | .eq => 0
  | .ne => 1
  | .lt => 2
  | .le => 3
  | .gt => 4
  | .ge => 5

def cmpFrom (b : UInt8) : Except Error CmpOp :=
  if b = 0 then .ok .eq
  else if b = 1 then .ok .ne
  else if b = 2 then .ok .lt
  else if b = 3 then .ok .le
  else if b = 4 then .ok .gt
  else if b = 5 then .ok .ge
  else .error (.corruption ("unknown comparison op " ++ toString b.toNat))

def arithBits : ArithOp → UInt8
  | .add => 0
  | .sub => 1
  | .mul => 2
  | .div => 3

def arithFrom (b : UInt8) : Except Error ArithOp :=
  if b = 0 then .ok .add
  else if b = 1 then .ok .sub
  else if b = 2 then .ok .mul
  else if b = 3 then .ok .div
  else .error (.corruption ("unknown arithmetic op " ++ toString b.toNat))

theorem cmpFrom_cmpBits (op : CmpOp) : cmpFrom (cmpBits op) = .ok op := by cases op <;> rfl

theorem arithFrom_arithBits (op : ArithOp) : arithFrom (arithBits op) = .ok op := by
  cases op <;> rfl

/-! ## Writing -/

def nestedDeeper : String := "condition nested deeper than " ++ toString maxExprDepth

mutual

/-- `put`, with `left` levels of nesting still allowed. -/
def putExpr : Expr → ℕ → Except Error Bytes
  | _, 0 => .error (.invalidOptimization nestedDeeper)
  | .literal v, _ + 1 => .ok (ExprTag.literal :: writeTlv v)
  | .field name, _ + 1 => .ok (ExprTag.field :: writeStr name)
  | .compare op lhs rhs, left + 1 => do
    let l ← putExpr lhs left
    let r ← putExpr rhs left
    return ExprTag.compare :: cmpBits op :: (l ++ r)
  | .and parts, left + 1 => do
    let ps ← putExprs parts left
    return ExprTag.and :: (writeLen parts.length ++ ps)
  | .or parts, left + 1 => do
    let ps ← putExprs parts left
    return ExprTag.or :: (writeLen parts.length ++ ps)
  | .not inner, left + 1 => do
    let i ← putExpr inner left
    return ExprTag.not :: i
  | .isNull inner, left + 1 => do
    let i ← putExpr inner left
    return ExprTag.isNull :: i
  | .isNotNull inner, left + 1 => do
    let i ← putExpr inner left
    return ExprTag.isNotNull :: i
  | .arith op lhs rhs, left + 1 => do
    let l ← putExpr lhs left
    let r ← putExpr rhs left
    return ExprTag.arith :: arithBits op :: (l ++ r)
  | .within needle list, left + 1 => do
    let n ← putExpr needle left
    let items ← putExprs list left
    return ExprTag.within :: (n ++ (writeLen list.length ++ items))
  | .like text pattern, left + 1 => do
    let t ← putExpr text left
    return ExprTag.like :: (t ++ writeStr pattern)

def putExprs : List Expr → ℕ → Except Error Bytes
  | [], _ => .ok []
  | e :: es, left => do
    let b ← putExpr e left
    let bs ← putExprs es left
    return b ++ bs

end

def encodeExpr (e : Expr) : Except Error Bytes := putExpr e (maxExprDepth + 1)

/-! ## Reading -/

abbrev ExprReader (α : Type) := Bytes → Except Error (α × Bytes)

def getByte : ExprReader UInt8
  | [] => .error (.corruption "condition truncated")
  | b :: rest => .ok (b, rest)

def getVarint : ExprReader UInt64 := fun buf =>
  match Varint.readU64 buf with
  | .ok (v, n) => .ok (v, buf.drop n)
  | .error _ => .error (.corruption "condition truncated in a length")

def getStr : ExprReader String := fun buf => do
  let (n, buf) ← getVarint buf
  ensure (n.toNat ≤ buf.length) (.corruption "condition truncated in a name")
  match decodeUtf8 (buf.take n.toNat) with
  | some s => return (s, buf.drop n.toNat)
  | none => .error (.corruption "invalid utf-8 in condition")

def getValue : ExprReader Value := fun buf => do
  let (v, c) ← readTlvValue 0 (.new buf)
  return (v.1, c.rest)

def getMany (get : ExprReader Expr) : ℕ → ExprReader (List Expr)
  | 0, buf => .ok ([], buf)
  | n + 1, buf => do
    let (e, buf) ← get buf
    let (es, buf) ← getMany get n buf
    return (e :: es, buf)

/-- A declared number of nodes, refused when fewer bytes than that remain. -/
def getExprs (things : String) (get : ExprReader Expr) : ExprReader (List Expr) := fun buf => do
  let (n, buf) ← getVarint buf
  ensure (n.toNat ≤ buf.length) (.corruption ("condition declares " ++ toString n.toNat ++ " " ++
    things ++ " but only " ++ toString buf.length ++ " bytes remain"))
  getMany get n.toNat buf

/-- `get`, with `left` levels of nesting still allowed. -/
def getExpr : ℕ → ExprReader Expr
  | 0, _ => .error (.corruption nestedDeeper)
  | left + 1, buf => do
    let (t, buf) ← getByte buf
    if t = ExprTag.literal then do
      let (v, buf) ← getValue buf
      return (.literal v, buf)
    else if t = ExprTag.field then do
      let (s, buf) ← getStr buf
      return (.field s, buf)
    else if t = ExprTag.compare then do
      let (b, buf) ← getByte buf
      let op ← cmpFrom b
      let (l, buf) ← getExpr left buf
      let (r, buf) ← getExpr left buf
      return (.compare op l r, buf)
    else if t = ExprTag.and then do
      let (ps, buf) ← getExprs "operands" (getExpr left) buf
      return (.and ps, buf)
    else if t = ExprTag.or then do
      let (ps, buf) ← getExprs "operands" (getExpr left) buf
      return (.or ps, buf)
    else if t = ExprTag.not then do
      let (e, buf) ← getExpr left buf
      return (.not e, buf)
    else if t = ExprTag.isNull then do
      let (e, buf) ← getExpr left buf
      return (.isNull e, buf)
    else if t = ExprTag.isNotNull then do
      let (e, buf) ← getExpr left buf
      return (.isNotNull e, buf)
    else if t = ExprTag.arith then do
      let (b, buf) ← getByte buf
      let op ← arithFrom b
      let (l, buf) ← getExpr left buf
      let (r, buf) ← getExpr left buf
      return (.arith op l r, buf)
    else if t = ExprTag.within then do
      let (n, buf) ← getExpr left buf
      let (items, buf) ← getExprs "list items" (getExpr left) buf
      return (.within n items, buf)
    else if t = ExprTag.like then do
      let (e, buf) ← getExpr left buf
      let (s, buf) ← getStr buf
      return (.like e s, buf)
    else .error (.corruption ("unknown expression tag " ++ toString t.toNat))

def decodeExpr (buf : Bytes) : Except Error Expr := do
  let (e, rest) ← getExpr (maxExprDepth + 1) buf
  ensure (rest = []) (.corruption ("condition has " ++ toString rest.length ++ " trailing bytes"))
  return e

/-! ## Hexadecimal -/

/-- The digit of a number below sixteen. -/
def hexDigit (n : ℕ) : Char := if n < 10 then Char.ofNat (48 + n) else Char.ofNat (87 + n)

def toHex (bytes : Bytes) : String :=
  String.ofList (bytes.flatMap fun b => [hexDigit (b.toNat / 16), hexDigit (b.toNat % 16)])

/-- `to_digit(16)`. -/
def hexValue (b : UInt8) : Option ℕ :=
  if 48 ≤ b.toNat ∧ b.toNat ≤ 57 then some (b.toNat - 48)
  else if 97 ≤ b.toNat ∧ b.toNat ≤ 102 then some (b.toNat - 87)
  else if 65 ≤ b.toNat ∧ b.toNat ≤ 70 then some (b.toNat - 55)
  else none

def fromHex : Bytes → Except Error Bytes
  | [] => .ok []
  | [_] => .error (.corruption "condition hex has an odd number of digits")
  | hi :: lo :: rest =>
    match hexValue hi, hexValue lo with
    | some h, some l => do
      let bytes ← fromHex rest
      return UInt8.ofNat (h * 16 + l) :: bytes
    | _, _ => .error (.corruption "condition hex has a non-hex digit")

def encodeExprHex (e : Expr) : Except Error String := do
  let bytes ← encodeExpr e
  return toHex bytes

def decodeExprHex (s : String) : Except Error Expr := do
  ensure (s.utf8ByteSize % 2 = 0) (.corruption "condition hex has an odd number of digits")
  let bytes ← fromHex (utf8 s)
  decodeExpr bytes

/-! ## Reading back -/

mutual

/-- The literals of an expression, in the order they are written in. -/
def literals : Expr → List Value
  | .literal v => [v]
  | .field _ => []
  | .compare _ lhs rhs => literals lhs ++ literals rhs
  | .and parts => literalsAll parts
  | .or parts => literalsAll parts
  | .not inner => literals inner
  | .isNull inner => literals inner
  | .isNotNull inner => literals inner
  | .arith _ lhs rhs => literals lhs ++ literals rhs
  | .within needle list => literals needle ++ literalsAll list
  | .like text _ => literals text

def literalsAll : List Expr → List Value
  | [] => []
  | e :: es => literals e ++ literalsAll es

end

/-- No literal is nested deeper than the reader of values follows. -/
def Shallow (vs : List Value) : Prop := ∀ v ∈ vs, v.nesting ≤ maxDepth

instance (vs : List Value) : Decidable (Shallow vs) :=
  inferInstanceAs (Decidable (∀ v ∈ vs, v.nesting ≤ maxDepth))

/-- What reading gives back: what was written, unless one of its literals is too deep. -/
def readAgain {α : Type} (vs : List Value) (a : α) (rest : Bytes) : Except Error (α × Bytes) :=
  if Shallow vs then .ok (a, rest) else .error tooDeep

theorem readAgain_bind {α β : Type} (vs ws : List Value) (a : α) (b : β) (rest rest' : Bytes)
    {f : α × Bytes → Except Error (β × Bytes)} (h : f (a, rest) = readAgain ws b rest') :
    readAgain vs a rest >>= f = readAgain (vs ++ ws) b rest' := by
  have hboth : Shallow (vs ++ ws) ↔ Shallow vs ∧ Shallow ws := List.forall_mem_append
  unfold readAgain at h ⊢
  by_cases hv : Shallow vs
  · rw [if_pos hv, ok_bind, h]
    by_cases hw : Shallow ws
    · rw [if_pos hw, if_pos (hboth.mpr ⟨hv, hw⟩)]
    · rw [if_neg hw, if_neg fun hvw => hw (hboth.mp hvw).2]
  · rw [if_neg hv, error_bind, if_neg fun hvw => hv (hboth.mp hvw).1]

theorem readAgain_map {α β : Type} (vs : List Value) (a : α) (rest : Bytes)
    {f : α × Bytes → Except Error (β × Bytes)} {b : β} (h : f (a, rest) = .ok (b, rest)) :
    readAgain vs a rest >>= f = readAgain vs b rest := by
  unfold readAgain
  split_ifs
  · rw [ok_bind, h]
  · rfl

theorem getVarint_writeLen {n : ℕ} (rest : Bytes) :
    getVarint (writeLen n ++ rest) = .ok (UInt64.ofNat n, rest) := by
  rw [getVarint, writeLen, Varint.readU64_writeU64]
  simp

theorem getStr_writeStr {s : String} (rest : Bytes) (h : s.utf8ByteSize < 2 ^ 64) :
    getStr (writeStr s ++ rest) = .ok (s, rest) := by
  have hroom : s.utf8ByteSize ≤ (utf8 s ++ rest).length := by
    rw [List.length_append, utf8_length]
    omega
  have htake : (utf8 s ++ rest).take s.utf8ByteSize = utf8 s := by
    rw [← utf8_length, List.take_left]
  have hdrop : (utf8 s ++ rest).drop s.utf8ByteSize = rest := by
    rw [← utf8_length, List.drop_left]
  rw [getStr, writeStr, List.append_assoc, getVarint_writeLen, ok_bind]
  simp only [toNat_ofNat_len h, ensure, if_pos hroom, ok_bind, htake, hdrop, decodeUtf8_utf8]
  rfl

theorem getValue_writeTlv {v : Value} (hv : v.Ordered) (hlen : (writeTlv v).length < 2 ^ 64)
    (rest : Bytes) : getValue (writeTlv v ++ rest) = readAgain [v] v rest := by
  have hshallow : Shallow [v] ↔ v.nesting ≤ maxDepth := List.forall_mem_singleton
  unfold readAgain
  split_ifs with h
  · rw [getValue, Cursor.new, readTlvValue_writeTlv ⟨v, hv⟩ (hshallow.mp h) hlen, ok_bind]
    rfl
  · rw [getValue, Cursor.new, readTlvValue_deep ⟨v, hv⟩ (not_le.mp fun hle => h (hshallow.mpr hle)) hlen,
      error_bind]

theorem length_putExpr {e : Expr} {left : ℕ} {b : Bytes} (h : putExpr e left = .ok b) :
    0 < b.length := by
  cases left with
  | zero =>
    rw [putExpr] at h
    cases h
  | succ left =>
    cases e <;> simp only [putExpr, Except.ok.injEq, bind_eq_ok, pure, Except.pure] at h
    case literal => simp [← h]
    case field => simp [← h]
    case compare =>
      obtain ⟨_, _, _, _, rfl⟩ := h
      simp
    case arith =>
      obtain ⟨_, _, _, _, rfl⟩ := h
      simp
    case within =>
      obtain ⟨_, _, _, _, rfl⟩ := h
      simp
    all_goals
      obtain ⟨_, _, rfl⟩ := h
      simp

theorem length_putExprs {es : List Expr} {left : ℕ} {b : Bytes} (h : putExprs es left = .ok b) :
    es.length ≤ b.length := by
  induction es generalizing b with
  | nil => simp
  | cons e es ih =>
    simp only [putExprs, bind_eq_ok, pure, Except.pure, Except.ok.injEq] at h
    obtain ⟨c, hc, cs, hcs, rfl⟩ := h
    have hhead := length_putExpr hc
    have htail := ih hcs
    rw [List.length_append, List.length_cons]
    omega

theorem getExprs_writeLen (things : String) {left n : ℕ} {vs : List Value} {es : List Expr} {b : Bytes}
    (rest : Bytes) (hn : n ≤ b.length) (hlen : b.length < 2 ^ 64)
    (h : getMany (getExpr left) n (b ++ rest) = readAgain vs es rest) :
    getExprs things (getExpr left) (writeLen n ++ (b ++ rest)) = readAgain vs es rest := by
  have hroom : n ≤ (b ++ rest).length := by
    rw [List.length_append]
    omega
  rw [getExprs, getVarint_writeLen, ok_bind]
  simp only [toNat_ofNat_len (lt_of_le_of_lt hn hlen), ensure, if_pos hroom, ok_bind]
  exact h

mutual

theorem getExpr_putExpr : (e : Expr) → (left : ℕ) → (b : Bytes) → putExpr e left = .ok b →
    (∀ v ∈ literals e, v.Ordered) → b.length < 2 ^ 64 → (rest : Bytes) →
    getExpr left (b ++ rest) = readAgain (literals e) e rest
  | e, 0, b, h, _, _, _ => by
    rw [putExpr] at h
    cases h
  | .literal v, left + 1, b, h, hv, hlen, rest => by
    simp only [putExpr, Except.ok.injEq] at h
    subst h
    rw [List.length_cons] at hlen
    have hread := getValue_writeTlv (hv v List.mem_cons_self) (by omega) rest
    simp +decide only [getExpr, List.cons_append, getByte, ok_bind, reduceIte, hread]
    exact readAgain_map _ _ _ rfl
  | .field name, left + 1, b, h, _, hlen, rest => by
    simp only [putExpr, Except.ok.injEq] at h
    subst h
    rw [List.length_cons, writeStr, List.length_append, utf8_length] at hlen
    have hread := getStr_writeStr rest (show name.utf8ByteSize < 2 ^ 64 by omega)
    simp +decide only [getExpr, List.cons_append, getByte, ok_bind, reduceIte, hread]
    rfl
  | .compare op lhs rhs, left + 1, b, h, hv, hlen, rest => by
    simp only [putExpr, bind_eq_ok, pure, Except.pure, Except.ok.injEq] at h
    obtain ⟨l, hl, r, hr, rfl⟩ := h
    simp only [List.length_cons, List.length_append] at hlen
    rw [literals, List.forall_mem_append] at hv
    have hleft := getExpr_putExpr lhs left l hl hv.1 (by omega) (r ++ rest)
    have hright := getExpr_putExpr rhs left r hr hv.2 (by omega) rest
    simp +decide only [getExpr, List.cons_append, List.append_assoc, getByte, ok_bind, reduceIte,
      cmpFrom_cmpBits, hleft]
    apply readAgain_bind
    simp only [hright]
    exact readAgain_map _ _ _ rfl
  | .and parts, left + 1, b, h, hv, hlen, rest => by
    simp only [putExpr, bind_eq_ok, pure, Except.pure, Except.ok.injEq] at h
    obtain ⟨ps, hps, rfl⟩ := h
    simp only [List.length_cons, List.length_append] at hlen
    have hparts := getExprs_writeLen "operands" rest (length_putExprs hps) (by omega)
      (getMany_putExprs parts left ps hps hv (by omega) rest)
    simp +decide only [getExpr, List.cons_append, List.append_assoc, getByte, ok_bind, reduceIte, hparts]
    exact readAgain_map _ _ _ rfl
  | .or parts, left + 1, b, h, hv, hlen, rest => by
    simp only [putExpr, bind_eq_ok, pure, Except.pure, Except.ok.injEq] at h
    obtain ⟨ps, hps, rfl⟩ := h
    simp only [List.length_cons, List.length_append] at hlen
    have hparts := getExprs_writeLen "operands" rest (length_putExprs hps) (by omega)
      (getMany_putExprs parts left ps hps hv (by omega) rest)
    simp +decide only [getExpr, List.cons_append, List.append_assoc, getByte, ok_bind, reduceIte, hparts]
    exact readAgain_map _ _ _ rfl
  | .not inner, left + 1, b, h, hv, hlen, rest => by
    simp only [putExpr, bind_eq_ok, pure, Except.pure, Except.ok.injEq] at h
    obtain ⟨i, hi, rfl⟩ := h
    rw [List.length_cons] at hlen
    have hinner := getExpr_putExpr inner left i hi hv (by omega) rest
    simp +decide only [getExpr, List.cons_append, getByte, ok_bind, reduceIte, hinner]
    exact readAgain_map _ _ _ rfl
  | .isNull inner, left + 1, b, h, hv, hlen, rest => by
    simp only [putExpr, bind_eq_ok, pure, Except.pure, Except.ok.injEq] at h
    obtain ⟨i, hi, rfl⟩ := h
    rw [List.length_cons] at hlen
    have hinner := getExpr_putExpr inner left i hi hv (by omega) rest
    simp +decide only [getExpr, List.cons_append, getByte, ok_bind, reduceIte, hinner]
    exact readAgain_map _ _ _ rfl
  | .isNotNull inner, left + 1, b, h, hv, hlen, rest => by
    simp only [putExpr, bind_eq_ok, pure, Except.pure, Except.ok.injEq] at h
    obtain ⟨i, hi, rfl⟩ := h
    rw [List.length_cons] at hlen
    have hinner := getExpr_putExpr inner left i hi hv (by omega) rest
    simp +decide only [getExpr, List.cons_append, getByte, ok_bind, reduceIte, hinner]
    exact readAgain_map _ _ _ rfl
  | .arith op lhs rhs, left + 1, b, h, hv, hlen, rest => by
    simp only [putExpr, bind_eq_ok, pure, Except.pure, Except.ok.injEq] at h
    obtain ⟨l, hl, r, hr, rfl⟩ := h
    simp only [List.length_cons, List.length_append] at hlen
    rw [literals, List.forall_mem_append] at hv
    have hleft := getExpr_putExpr lhs left l hl hv.1 (by omega) (r ++ rest)
    have hright := getExpr_putExpr rhs left r hr hv.2 (by omega) rest
    simp +decide only [getExpr, List.cons_append, List.append_assoc, getByte, ok_bind, reduceIte,
      arithFrom_arithBits, hleft]
    apply readAgain_bind
    simp only [hright]
    exact readAgain_map _ _ _ rfl
  | .within needle list, left + 1, b, h, hv, hlen, rest => by
    simp only [putExpr, bind_eq_ok, pure, Except.pure, Except.ok.injEq] at h
    obtain ⟨n, hn, items, hitems, rfl⟩ := h
    simp only [List.length_cons, List.length_append] at hlen
    rw [literals, List.forall_mem_append] at hv
    have hneedle := getExpr_putExpr needle left n hn hv.1 (by omega)
      (writeLen list.length ++ (items ++ rest))
    have hlist := getExprs_writeLen "list items" rest (length_putExprs hitems) (by omega)
      (getMany_putExprs list left items hitems hv.2 (by omega) rest)
    simp +decide only [getExpr, List.cons_append, List.append_assoc, getByte, ok_bind, reduceIte, hneedle]
    apply readAgain_bind
    simp only [hlist]
    exact readAgain_map _ _ _ rfl
  | .like text pattern, left + 1, b, h, hv, hlen, rest => by
    simp only [putExpr, bind_eq_ok, pure, Except.pure, Except.ok.injEq] at h
    obtain ⟨t, ht, rfl⟩ := h
    simp only [List.length_cons, List.length_append, writeStr, utf8_length] at hlen
    have htext := getExpr_putExpr text left t ht hv (by omega) (writeStr pattern ++ rest)
    have hpattern := getStr_writeStr rest (show pattern.utf8ByteSize < 2 ^ 64 by omega)
    simp +decide only [getExpr, List.cons_append, List.append_assoc, getByte, ok_bind, reduceIte, htext]
    have hliterals : literals (.like text pattern) = literals text ++ [] := by
      rw [literals, List.append_nil]
    rw [hliterals]
    apply readAgain_bind
    simp only [hpattern]
    rfl

theorem getMany_putExprs : (es : List Expr) → (left : ℕ) → (b : Bytes) → putExprs es left = .ok b →
    (∀ v ∈ literalsAll es, v.Ordered) → b.length < 2 ^ 64 → (rest : Bytes) →
    getMany (getExpr left) es.length (b ++ rest) = readAgain (literalsAll es) es rest
  | [], left, b, h, _, _, rest => by
    cases h
    rfl
  | e :: es, left, b, h, hv, hlen, rest => by
    simp only [putExprs, bind_eq_ok, pure, Except.pure, Except.ok.injEq] at h
    obtain ⟨c, hc, cs, hcs, rfl⟩ := h
    rw [List.length_append] at hlen
    rw [literalsAll, List.forall_mem_append] at hv
    have hhead := getExpr_putExpr e left c hc hv.1 (by omega) (cs ++ rest)
    have htail := getMany_putExprs es left cs hcs hv.2 (by omega) rest
    rw [List.length_cons, List.append_assoc, getMany, hhead, literalsAll]
    apply readAgain_bind
    simp only [htail]
    exact readAgain_map _ _ _ rfl

end

/-- The encoding read, with something behind it or not. -/
theorem decodeExpr_append {e : Expr} {b : Bytes} (h : encodeExpr e = .ok b)
    (hv : ∀ v ∈ literals e, v.Ordered) (hlen : b.length < 2 ^ 64) (rest : Bytes) :
    decodeExpr (b ++ rest) =
      if Shallow (literals e) then
        if rest = [] then .ok e
        else .error (.corruption ("condition has " ++ toString rest.length ++ " trailing bytes"))
      else .error tooDeep := by
  rw [decodeExpr, getExpr_putExpr e _ b h hv hlen, readAgain]
  by_cases hshallow : Shallow (literals e)
  · rw [if_pos hshallow, if_pos hshallow, ok_bind]
    simp only [ensure]
    split_ifs <;> rfl
  · rw [if_neg hshallow, if_neg hshallow, error_bind]

/-! ## No encoding begins another -/

def exprTag : Expr → UInt8
  | .literal _ => ExprTag.literal
  | .field _ => ExprTag.field
  | .compare _ _ _ => ExprTag.compare
  | .and _ => ExprTag.and
  | .or _ => ExprTag.or
  | .not _ => ExprTag.not
  | .isNull _ => ExprTag.isNull
  | .isNotNull _ => ExprTag.isNotNull
  | .arith _ _ _ => ExprTag.arith
  | .within _ _ => ExprTag.within
  | .like _ _ => ExprTag.like

theorem putExpr_tag {e : Expr} {left : ℕ} {b : Bytes} (h : putExpr e left = .ok b) :
    b.head? = some (exprTag e) := by
  cases left with
  | zero =>
    rw [putExpr] at h
    cases h
  | succ left =>
    cases e <;> simp only [putExpr, Except.ok.injEq, bind_eq_ok, pure, Except.pure] at h
    case literal => simp [← h, exprTag]
    case field => simp [← h, exprTag]
    case compare =>
      obtain ⟨_, _, _, _, rfl⟩ := h
      rfl
    case arith =>
      obtain ⟨_, _, _, _, rfl⟩ := h
      rfl
    case within =>
      obtain ⟨_, _, _, _, rfl⟩ := h
      rfl
    all_goals
      obtain ⟨_, _, rfl⟩ := h
      rfl

theorem exprTag_eq {e e' : Expr} {left left' : ℕ} {b b' r r' : Bytes}
    (h : putExpr e left = .ok b) (h' : putExpr e' left' = .ok b') (hb : b ++ r = b' ++ r') :
    exprTag e = exprTag e' := by
  have hhead := congrArg List.head? hb
  rw [List.head?_append, List.head?_append, putExpr_tag h, putExpr_tag h'] at hhead
  exact Option.some.inj hhead

theorem writeLen_cancel {m n : ℕ} (hm : m < 2 ^ 64) (hn : n < 2 ^ 64) {r r' : Bytes}
    (h : writeLen m ++ r = writeLen n ++ r') : m = n ∧ r = r' := by
  have hread := getVarint_writeLen (n := m) r
  rw [h, getVarint_writeLen, Except.ok.injEq, Prod.mk.injEq] at hread
  have hlen := congrArg UInt64.toNat hread.1
  rw [toNat_ofNat_len hm, toNat_ofNat_len hn] at hlen
  exact ⟨hlen.symm, hread.2.symm⟩

theorem writeStr_cancel {s t : String} (hs : s.utf8ByteSize < 2 ^ 64) (ht : t.utf8ByteSize < 2 ^ 64)
    {r r' : Bytes} (h : writeStr s ++ r = writeStr t ++ r') : s = t ∧ r = r' := by
  have hread := getStr_writeStr r hs
  rw [h, getStr_writeStr r' ht, Except.ok.injEq, Prod.mk.injEq] at hread
  exact ⟨hread.1.symm, hread.2.symm⟩

theorem cmpBits_injective {op op' : CmpOp} (h : cmpBits op = cmpBits op') : op = op' := by
  cases op <;> cases op' <;> first | rfl | exact absurd h (by decide)

theorem arithBits_injective {op op' : ArithOp} (h : arithBits op = arithBits op') : op = op' := by
  cases op <;> cases op' <;> first | rfl | exact absurd h (by decide)

mutual

/-- Two encodings with something behind them are one only if all of it is. -/
theorem putExpr_cancel : (e e' : Expr) → (left : ℕ) → (b b' : Bytes) → putExpr e left = .ok b →
    putExpr e' left = .ok b' → (∀ v ∈ literals e, v.Ordered) → (∀ v ∈ literals e', v.Ordered) →
    b.length < 2 ^ 64 → b'.length < 2 ^ 64 → (r r' : Bytes) → b ++ r = b' ++ r' → e = e' ∧ r = r'
  | e, _, 0, b, _, h, _, _, _, _, _, _, _, _ => by
    rw [putExpr] at h
    cases h
  | .literal v, e', left + 1, b, b', h, h', hv, hv', hlen, hlen', r, r', hb => by
    have htag := exprTag_eq h h' hb
    cases e' <;> try exact absurd htag (by simp only [exprTag]; decide)
    rename_i w
    simp only [putExpr, Except.ok.injEq] at h h'
    subst h h'
    rw [List.length_cons] at hlen hlen'
    obtain ⟨rfl, rfl⟩ := writeTlv_cancel (hv v List.mem_cons_self) (hv' w List.mem_cons_self)
      (by omega) (by omega) (List.cons.inj hb).2
    exact ⟨rfl, rfl⟩
  | .field s, e', left + 1, b, b', h, h', hv, hv', hlen, hlen', r, r', hb => by
    have htag := exprTag_eq h h' hb
    cases e' <;> try exact absurd htag (by simp only [exprTag]; decide)
    rename_i t
    simp only [putExpr, Except.ok.injEq] at h h'
    subst h h'
    rw [List.length_cons, writeStr, List.length_append, utf8_length] at hlen hlen'
    obtain ⟨rfl, rfl⟩ := writeStr_cancel (by omega) (by omega) (List.cons.inj hb).2
    exact ⟨rfl, rfl⟩
  | .compare op lhs rhs, e', left + 1, b, b', h, h', hv, hv', hlen, hlen', r, r', hb => by
    have htag := exprTag_eq h h' hb
    cases e' <;> try exact absurd htag (by simp only [exprTag]; decide)
    rename_i op' lhs' rhs'
    simp only [putExpr, bind_eq_ok, pure, Except.pure, Except.ok.injEq] at h h'
    obtain ⟨x, hx, y, hy, rfl⟩ := h
    obtain ⟨x', hx', y', hy', rfl⟩ := h'
    simp only [List.length_cons, List.length_append] at hlen hlen'
    rw [literals, List.forall_mem_append] at hv hv'
    simp only [List.cons_append, List.cons.injEq, true_and, List.append_assoc] at hb
    obtain ⟨rfl, htail⟩ := putExpr_cancel lhs lhs' left x x' hx hx' hv.1 hv'.1 (by omega)
      (by omega) _ _ hb.2
    obtain ⟨rfl, rfl⟩ := putExpr_cancel rhs rhs' left y y' hy hy' hv.2 hv'.2 (by omega) (by omega)
      _ _ htail
    rw [cmpBits_injective hb.1]
    exact ⟨rfl, rfl⟩
  | .and parts, e', left + 1, b, b', h, h', hv, hv', hlen, hlen', r, r', hb => by
    have htag := exprTag_eq h h' hb
    cases e' <;> try exact absurd htag (by simp only [exprTag]; decide)
    rename_i parts'
    simp only [putExpr, bind_eq_ok, pure, Except.pure, Except.ok.injEq] at h h'
    obtain ⟨x, hx, rfl⟩ := h
    obtain ⟨x', hx', rfl⟩ := h'
    simp only [List.length_cons, List.length_append] at hlen hlen'
    have hcount := length_putExprs hx
    have hcount' := length_putExprs hx'
    simp only [List.cons_append, List.cons.injEq, true_and, List.append_assoc] at hb
    obtain ⟨hsame, htail⟩ := writeLen_cancel (by omega) (by omega) hb
    obtain ⟨rfl, rfl⟩ := putExprs_cancel parts parts' hsame left x x' hx hx' hv hv' (by omega)
      (by omega) _ _ htail
    exact ⟨rfl, rfl⟩
  | .or parts, e', left + 1, b, b', h, h', hv, hv', hlen, hlen', r, r', hb => by
    have htag := exprTag_eq h h' hb
    cases e' <;> try exact absurd htag (by simp only [exprTag]; decide)
    rename_i parts'
    simp only [putExpr, bind_eq_ok, pure, Except.pure, Except.ok.injEq] at h h'
    obtain ⟨x, hx, rfl⟩ := h
    obtain ⟨x', hx', rfl⟩ := h'
    simp only [List.length_cons, List.length_append] at hlen hlen'
    have hcount := length_putExprs hx
    have hcount' := length_putExprs hx'
    simp only [List.cons_append, List.cons.injEq, true_and, List.append_assoc] at hb
    obtain ⟨hsame, htail⟩ := writeLen_cancel (by omega) (by omega) hb
    obtain ⟨rfl, rfl⟩ := putExprs_cancel parts parts' hsame left x x' hx hx' hv hv' (by omega)
      (by omega) _ _ htail
    exact ⟨rfl, rfl⟩
  | .not inner, e', left + 1, b, b', h, h', hv, hv', hlen, hlen', r, r', hb => by
    have htag := exprTag_eq h h' hb
    cases e' <;> try exact absurd htag (by simp only [exprTag]; decide)
    rename_i inner'
    simp only [putExpr, bind_eq_ok, pure, Except.pure, Except.ok.injEq] at h h'
    obtain ⟨x, hx, rfl⟩ := h
    obtain ⟨x', hx', rfl⟩ := h'
    rw [List.length_cons] at hlen hlen'
    obtain ⟨rfl, rfl⟩ := putExpr_cancel inner inner' left x x' hx hx' hv hv' (by omega) (by omega)
      r r' (List.cons.inj hb).2
    exact ⟨rfl, rfl⟩
  | .isNull inner, e', left + 1, b, b', h, h', hv, hv', hlen, hlen', r, r', hb => by
    have htag := exprTag_eq h h' hb
    cases e' <;> try exact absurd htag (by simp only [exprTag]; decide)
    rename_i inner'
    simp only [putExpr, bind_eq_ok, pure, Except.pure, Except.ok.injEq] at h h'
    obtain ⟨x, hx, rfl⟩ := h
    obtain ⟨x', hx', rfl⟩ := h'
    rw [List.length_cons] at hlen hlen'
    obtain ⟨rfl, rfl⟩ := putExpr_cancel inner inner' left x x' hx hx' hv hv' (by omega) (by omega)
      r r' (List.cons.inj hb).2
    exact ⟨rfl, rfl⟩
  | .isNotNull inner, e', left + 1, b, b', h, h', hv, hv', hlen, hlen', r, r', hb => by
    have htag := exprTag_eq h h' hb
    cases e' <;> try exact absurd htag (by simp only [exprTag]; decide)
    rename_i inner'
    simp only [putExpr, bind_eq_ok, pure, Except.pure, Except.ok.injEq] at h h'
    obtain ⟨x, hx, rfl⟩ := h
    obtain ⟨x', hx', rfl⟩ := h'
    rw [List.length_cons] at hlen hlen'
    obtain ⟨rfl, rfl⟩ := putExpr_cancel inner inner' left x x' hx hx' hv hv' (by omega) (by omega)
      r r' (List.cons.inj hb).2
    exact ⟨rfl, rfl⟩
  | .arith op lhs rhs, e', left + 1, b, b', h, h', hv, hv', hlen, hlen', r, r', hb => by
    have htag := exprTag_eq h h' hb
    cases e' <;> try exact absurd htag (by simp only [exprTag]; decide)
    rename_i op' lhs' rhs'
    simp only [putExpr, bind_eq_ok, pure, Except.pure, Except.ok.injEq] at h h'
    obtain ⟨x, hx, y, hy, rfl⟩ := h
    obtain ⟨x', hx', y', hy', rfl⟩ := h'
    simp only [List.length_cons, List.length_append] at hlen hlen'
    rw [literals, List.forall_mem_append] at hv hv'
    simp only [List.cons_append, List.cons.injEq, true_and, List.append_assoc] at hb
    obtain ⟨rfl, htail⟩ := putExpr_cancel lhs lhs' left x x' hx hx' hv.1 hv'.1 (by omega)
      (by omega) _ _ hb.2
    obtain ⟨rfl, rfl⟩ := putExpr_cancel rhs rhs' left y y' hy hy' hv.2 hv'.2 (by omega) (by omega)
      _ _ htail
    rw [arithBits_injective hb.1]
    exact ⟨rfl, rfl⟩
  | .within needle list, e', left + 1, b, b', h, h', hv, hv', hlen, hlen', r, r', hb => by
    have htag := exprTag_eq h h' hb
    cases e' <;> try exact absurd htag (by simp only [exprTag]; decide)
    rename_i needle' list'
    simp only [putExpr, bind_eq_ok, pure, Except.pure, Except.ok.injEq] at h h'
    obtain ⟨x, hx, y, hy, rfl⟩ := h
    obtain ⟨x', hx', y', hy', rfl⟩ := h'
    simp only [List.length_cons, List.length_append] at hlen hlen'
    rw [literals, List.forall_mem_append] at hv hv'
    have hcount := length_putExprs hy
    have hcount' := length_putExprs hy'
    simp only [List.cons_append, List.cons.injEq, true_and, List.append_assoc] at hb
    obtain ⟨rfl, htail⟩ := putExpr_cancel needle needle' left x x' hx hx' hv.1 hv'.1 (by omega)
      (by omega) _ _ hb
    obtain ⟨hsame, htail⟩ := writeLen_cancel (by omega) (by omega) htail
    obtain ⟨rfl, rfl⟩ := putExprs_cancel list list' hsame left y y' hy hy' hv.2 hv'.2 (by omega)
      (by omega) _ _ htail
    exact ⟨rfl, rfl⟩
  | .like text pattern, e', left + 1, b, b', h, h', hv, hv', hlen, hlen', r, r', hb => by
    have htag := exprTag_eq h h' hb
    cases e' <;> try exact absurd htag (by simp only [exprTag]; decide)
    rename_i text' pattern'
    simp only [putExpr, bind_eq_ok, pure, Except.pure, Except.ok.injEq] at h h'
    obtain ⟨x, hx, rfl⟩ := h
    obtain ⟨x', hx', rfl⟩ := h'
    simp only [List.length_cons, List.length_append, writeStr, utf8_length] at hlen hlen'
    simp only [List.cons_append, List.cons.injEq, true_and, List.append_assoc] at hb
    obtain ⟨rfl, htail⟩ := putExpr_cancel text text' left x x' hx hx' hv hv' (by omega) (by omega)
      _ _ hb
    obtain ⟨rfl, rfl⟩ := writeStr_cancel (by omega) (by omega) htail
    exact ⟨rfl, rfl⟩

theorem putExprs_cancel : (es es' : List Expr) → es.length = es'.length → (left : ℕ) →
    (b b' : Bytes) → putExprs es left = .ok b → putExprs es' left = .ok b' →
    (∀ v ∈ literalsAll es, v.Ordered) → (∀ v ∈ literalsAll es', v.Ordered) → b.length < 2 ^ 64 →
    b'.length < 2 ^ 64 → (r r' : Bytes) → b ++ r = b' ++ r' → es = es' ∧ r = r'
  | [], [], _, _, b, b', h, h', _, _, _, _, r, r', hb => by
    cases h
    cases h'
    exact ⟨rfl, hb⟩
  | e :: es, e' :: es', hsame, left, b, b', h, h', hv, hv', hlen, hlen', r, r', hb => by
    simp only [putExprs, bind_eq_ok, pure, Except.pure, Except.ok.injEq] at h h'
    obtain ⟨x, hx, xs, hxs, rfl⟩ := h
    obtain ⟨x', hx', xs', hxs', rfl⟩ := h'
    simp only [List.length_append] at hlen hlen'
    rw [literalsAll, List.forall_mem_append] at hv hv'
    rw [List.append_assoc, List.append_assoc] at hb
    obtain ⟨rfl, htail⟩ := putExpr_cancel e e' left x x' hx hx' hv.1 hv'.1 (by omega) (by omega)
      _ _ hb
    obtain ⟨rfl, rfl⟩ := putExprs_cancel es es' (Nat.succ.inj hsame) left xs xs' hxs hxs' hv.2
      hv'.2 (by omega) (by omega) _ _ htail
    exact ⟨rfl, rfl⟩

end

/-! ## Reading back hexadecimal -/

theorem hexDigit_utf8 : ∀ n < 16,
    String.utf8EncodeChar (hexDigit n) = [UInt8.ofNat (if n < 10 then 48 + n else 87 + n)] ∧
      hexValue (UInt8.ofNat (if n < 10 then 48 + n else 87 + n)) = some n := by
  decide

theorem utf8_ofList (cs : List Char) : utf8 (String.ofList cs) = cs.flatMap String.utf8EncodeChar :=
  List.toList_data_toByteArray

theorem utf8_toHex (bytes : Bytes) : utf8 (toHex bytes) = bytes.flatMap fun b =>
    String.utf8EncodeChar (hexDigit (b.toNat / 16)) ++ String.utf8EncodeChar (hexDigit (b.toNat % 16)) := by
  rw [toHex, utf8_ofList, List.flatMap_assoc]
  simp only [List.flatMap_cons, List.flatMap_nil, List.append_nil]

theorem fromHex_toHex (bytes : Bytes) :
    fromHex (utf8 (toHex bytes)) = .ok bytes ∧ (toHex bytes).utf8ByteSize = 2 * bytes.length := by
  rw [← utf8_length, utf8_toHex]
  induction bytes with
  | nil => exact ⟨rfl, rfl⟩
  | cons b bytes ih =>
    have hb : b.toNat < 256 := b.toNat_lt
    obtain ⟨hhi, hhiValue⟩ := hexDigit_utf8 (b.toNat / 16) (by omega)
    obtain ⟨hlo, hloValue⟩ := hexDigit_utf8 (b.toNat % 16) (by omega)
    have hback : UInt8.ofNat (b.toNat / 16 * 16 + b.toNat % 16) = b := by
      rw [Nat.div_add_mod', UInt8.ofNat_toNat]
    rw [List.flatMap_cons, hhi, hlo, List.singleton_append, List.cons_append, List.singleton_append]
    constructor
    · rw [fromHex]
      simp only [hhiValue, hloValue, ih.1, ok_bind, hback]
      rfl
    · rw [List.length_cons, List.length_cons, ih.2, List.length_cons]
      omega

theorem decodeExprHex_toHex (bytes : Bytes) : decodeExprHex (toHex bytes) = decodeExpr bytes := by
  obtain ⟨hbytes, hsize⟩ := fromHex_toHex bytes
  rw [decodeExprHex, ensure, if_pos (by omega), ok_bind, hbytes, ok_bind]

/-! ## Round trips -/

/-- The expression is read back from both of its encodings, and no other expression has the
first one. -/
structure ReadsBack (e : Expr) (b : Bytes) : Prop where
  bytes : decodeExpr b = .ok e
  hex : ∃ s, encodeExprHex e = .ok s ∧ decodeExprHex s = .ok e
  alone : ∀ e', (∀ v ∈ literals e', v.Ordered) → encodeExpr e' = .ok b → e' = e

/-- Lists in lists, so many deep. -/
def nestedLiteral : ℕ → Value
  | 0 => .null
  | depth + 1 => .list [nestedLiteral depth]

def nullCheck (depth : ℕ) : Expr := .isNull (.literal (nestedLiteral depth))

def nullCheckBytes (depth : ℕ) : Bytes :=
  ExprTag.isNull :: ExprTag.literal :: writeTlv (nestedLiteral depth)

theorem encodeExpr_nullCheck (depth : ℕ) :
    encodeExpr (nullCheck depth) = .ok (nullCheckBytes depth) := by
  rw [encodeExpr, nullCheck, maxExprDepth, putExpr, putExpr, ok_bind]
  rfl

theorem nestedLiteral_ordered (depth : ℕ) : (nestedLiteral depth).Ordered := by
  induction depth with
  | zero => trivial
  | succ depth ih => exact ⟨ih, trivial⟩

theorem nullCheck_ordered (depth : ℕ) : ∀ v ∈ literals (nullCheck depth), v.Ordered := by
  intro v hv
  rw [List.mem_singleton.mp hv]
  exact nestedLiteral_ordered depth

end Adabt.Engine
