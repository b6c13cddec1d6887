import Adabt.Ir.Vm

/-! # The compiled evaluator agrees with the tree walker

The code emitted for an expression, wherever it lies in a program, pushes the
value or truth of the expression and nothing else. A fold's jumps are patched
after its code is emitted, so its operands are followed in the patched program. -/

set_option autoImplicit false

namespace Adabt.Ir
open Adabt.Core Adabt.Library

namespace Program

/-! ## What emitting adds -/

/-- The second program is the first with more appended. -/
structure Prefix (p q : Program) : Prop where
  ops : p.ops <+: q.ops
  fields : p.fields <+: q.fields
  patterns : p.patterns <+: q.patterns

theorem Prefix.refl (p : Program) : Prefix p p := ⟨List.prefix_rfl, List.prefix_rfl, List.prefix_rfl⟩

theorem Prefix.trans {p q r : Program} (h : Prefix p q) (g : Prefix q r) : Prefix p r :=
  ⟨h.ops.trans g.ops, h.fields.trans g.fields, h.patterns.trans g.patterns⟩

theorem Prefix.push {p q : Program} (h : Prefix p q) (op : Op) : Prefix p (q.push op) :=
  h.trans ⟨List.prefix_append _ _, List.prefix_rfl, List.prefix_rfl⟩

@[simp] theorem length_push (p : Program) (op : Op) :
    (p.push op).ops.length = p.ops.length + 1 := by
  simp [Program.push]

theorem prefix_internField (p : Program) (name : String) : Prefix p (p.internField name).1 := by
  unfold internField
  by_cases h : name ∈ p.fields
  · rw [if_pos h]
    exact .refl p
  · rw [if_neg h]
    exact ⟨List.prefix_rfl, List.prefix_append _ _, List.prefix_rfl⟩

theorem prefix_internPattern (p : Program) (pattern : String) :
    Prefix p (p.internPattern pattern).1 := by
  unfold internPattern
  by_cases h : parseLikePattern pattern ∈ p.patterns
  · rw [if_pos h]
    exact .refl p
  · rw [if_neg h]
    exact ⟨List.prefix_rfl, List.prefix_rfl, List.prefix_append _ _⟩

theorem prefix_emitValue : (p : Program) → (e : Expr) → Prefix p (p.emitValue e)
  | p, .literal _ => (Prefix.refl p).push _
  | p, .field name => (prefix_internField p name).push _
  | p, .arith _ lhs rhs =>
    ((prefix_emitValue p lhs).trans (prefix_emitValue (p.emitValue lhs) rhs)).push _
  | p, .compare .. | p, .and _ | p, .or _ | p, .not _ | p, .isNull _ | p, .isNotNull _
  | p, .within .. | p, .like .. => (Prefix.refl p).push _

theorem prefix_emitValues (p : Program) (es : List Expr) : Prefix p (es.foldl emitValue p) := by
  induction es generalizing p with
  | nil => exact .refl p
  | cons e es ih => exact (prefix_emitValue p e).trans (ih _)

theorem length_patched (target : ℕ) (patches : List ℕ) (ops : List Op) :
    (patches.foldl (fun ops i => ops.modify i (retarget target)) ops).length = ops.length := by
  induction patches generalizing ops with
  | nil => rfl
  | cons i patches ih => rw [List.foldl_cons, ih, List.length_modify]

@[simp] theorem length_patch (p : Program) (patches : List ℕ) :
    (p.patch patches).ops.length = p.ops.length :=
  length_patched _ _ _

theorem retarget_idem (target : ℕ) (op : Op) :
    retarget target (retarget target op) = retarget target op := by
  cases op <;> rfl

theorem getElem?_patched (target : ℕ) (patches : List ℕ) (ops : List Op) (i : ℕ) :
    (patches.foldl (fun ops j => ops.modify j (retarget target)) ops)[i]? =
      if i ∈ patches then ops[i]?.map (retarget target) else ops[i]? := by
  induction patches generalizing ops with
  | nil => simp
  | cons j patches ih =>
    rw [List.foldl_cons, ih, List.getElem?_modify]
    by_cases hij : j = i
    · subst hij
      by_cases hi : j ∈ patches
      · simp [hi, Function.comp_def, retarget_idem]
      · simp [hi]
    · simp [hij, Ne.symm hij]

theorem patch_getElem? (p : Program) (patches : List ℕ) (i : ℕ) :
    (p.patch patches).ops[i]? =
      if i ∈ patches then p.ops[i]?.map (retarget p.ops.length) else p.ops[i]? :=
  getElem?_patched _ _ _ _

/-- Patching past the end of a program leaves it a prefix. -/
theorem Prefix.patch {p q : Program} (h : Prefix p q) {patches : List ℕ}
    (hp : ∀ i ∈ patches, p.ops.length ≤ i) : Prefix p (q.patch patches) := by
  refine ⟨?_, h.fields, h.patterns⟩
  rw [List.prefix_iff_getElem?]
  intro i hi
  rw [patch_getElem?, if_neg fun hm => Nat.not_le.mpr hi (hp i hm)]
  exact List.prefix_iff_getElem?.mp h.ops i hi

mutual

theorem prefix_emitPred : (p : Program) → (e : Expr) → Prefix p (p.emitPred e)
  | p, .literal .null | p, .literal (.bool _) => (Prefix.refl p).push _
  | p, .literal (.i64 _) | p, .literal (.u64 _) | p, .literal (.f64 _)
  | p, .literal (.decimal ..) | p, .literal (.timestamp _) | p, .literal (.str _)
  | p, .literal (.bytes _) | p, .literal (.list _) | p, .literal (.map _) =>
    (prefix_emitValue p _).push _
  | p, .field _ => (prefix_emitValue p _).push _
  | p, .arith .. => (prefix_emitValue p _).push _
  | p, .compare _ lhs rhs =>
    ((prefix_emitValue p lhs).trans (prefix_emitValue (p.emitValue lhs) rhs)).push _
  | p, .not inner => (prefix_emitPred p inner).push _
  | p, .isNull inner => (prefix_emitValue p inner).push _
  | p, .isNotNull inner => (prefix_emitValue p inner).push _
  | p, .within needle list =>
    ((prefix_emitValue p needle).trans (prefix_emitValues (p.emitValue needle) list)).push _
  | p, .like text pattern =>
    ((prefix_emitValue p text).trans (prefix_internPattern (p.emitValue text) pattern)).push _
  | p, .and parts => prefix_emitFold p parts true
  | p, .or parts => prefix_emitFold p parts false

theorem prefix_emitFold : (p : Program) → (parts : List Expr) → (isAnd : Bool) →
    Prefix p (p.emitFold parts isAnd)
  | p, [], _ => (Prefix.refl p).push _
  | p, part :: rest, isAnd => by
    have hpart := prefix_emitPred p part
    have hrest := prefix_emitRest (p.emitPred part) rest isAnd
    refine (hpart.trans hrest.1).patch fun i hi => ?_
    exact hpart.ops.length_le.trans (hrest.2 i hi).1

theorem prefix_emitRest : (p : Program) → (rest : List Expr) → (isAnd : Bool) →
    Prefix p (p.emitRest rest isAnd).1 ∧ ∀ i ∈ (p.emitRest rest isAnd).2,
      p.ops.length ≤ i ∧ i < (p.emitRest rest isAnd).1.ops.length
  | p, [], _ => ⟨.refl p, fun i hi => by cases hi⟩
  | p, part :: rest, isAnd => by
    have hjump := (Prefix.refl p).push (jumpOp isAnd placeholder)
    have hpart := (prefix_emitPred (p.push (jumpOp isAnd placeholder)) part).push (foldOp isAnd)
    have hrest := prefix_emitRest
      (((p.push (jumpOp isAnd placeholder)).emitPred part).push (foldOp isAnd)) rest isAnd
    have hlen := (hpart.trans hrest.1).ops.length_le
    rw [length_push] at hlen
    rw [emitRest]
    refine ⟨hjump.trans (hpart.trans hrest.1), fun i hi => ?_⟩
    rcases List.mem_cons.mp hi with rfl | hi
    · exact ⟨le_rfl, hlen⟩
    · exact ⟨(hjump.trans hpart).ops.length_le.trans (hrest.2 i hi).1, (hrest.2 i hi).2⟩

end

/-! ## Code in place -/

/-- `q` holds, where `p` ends, the code that leads from `p` to `p'`. -/
structure Holds (q p p' : Program) : Prop where
  ops : ∀ i, p.ops.length ≤ i → i < p'.ops.length → q.ops[i]? = p'.ops[i]?
  fields : p'.fields <+: q.fields
  patterns : p'.patterns <+: q.patterns
  length : p'.ops.length ≤ q.ops.length

theorem Holds.left {q p p' r : Program} (h : Holds q p r) (hp : Prefix p' r) : Holds q p p' := by
  refine ⟨fun i hl hi => ?_, hp.fields.trans h.fields, hp.patterns.trans h.patterns,
    hp.ops.length_le.trans h.length⟩
  rw [h.ops i hl (hi.trans_le hp.ops.length_le), List.getElem?_eq_getElem hi]
  exact List.prefix_iff_getElem?.mp hp.ops i hi

theorem Holds.right {q p p' r : Program} (h : Holds q p r) (hp : Prefix p p') : Holds q p' r :=
  ⟨fun i hl hi => h.ops i (hp.ops.length_le.trans hl) hi, h.fields, h.patterns, h.length⟩

/-- The instruction pushed last is in place. -/
theorem Holds.last {q p p' : Program} {op : Op} (h : Holds q p (p'.push op)) (hp : Prefix p p') :
    q.ops[p'.ops.length]? = some op := by
  rw [h.ops _ hp.ops.length_le (by simp)]
  simp [Program.push]

theorem Holds.init {q p p' : Program} {op : Op} (h : Holds q p (p'.push op)) : Holds q p p' :=
  h.left ((Prefix.refl p').push op)

/-! ## Runs -/

/-- One machine goes to the other, with every instruction supplied on the way. -/
inductive Reaches (q : Program) (rec : Record) : Machine → Machine → Prop where
  | refl (m : Machine) : Reaches q rec m m
  | step {m m' : Machine} {op : Op} (hop : q.ops[m.pc]? = some op) (hs : q.Supplied m op)
      (h : Reaches q rec (q.step rec m op) m') : Reaches q rec m m'

theorem Reaches.trans {q : Program} {rec : Record} {m m1 m2 : Machine} (h : Reaches q rec m m1)
    (g : Reaches q rec m1 m2) : Reaches q rec m m2 := by
  induction h with
  | refl => exact g
  | step hop hs _ ih => exact .step hop hs (ih g)

theorem Reaches.one {q : Program} {rec : Record} {m m' : Machine} {op : Op}
    (hop : q.ops[m.pc]? = some op) (hs : q.Supplied m op) (he : q.step rec m op = m') :
    Reaches q rec m m' :=
  .step hop hs (he ▸ .refl _)

theorem internField_spec (q p : Program) (name : String)
    (h : (p.internField name).1.fields <+: q.fields) :
    (p.internField name).2 < q.fields.length ∧
      q.fields.getD (p.internField name).2 "" = name := by
  have hlt : (p.internField name).2 < (p.internField name).1.fields.length := by
    unfold internField
    by_cases hm : name ∈ p.fields
    · simpa [hm] using List.idxOf_lt_length_of_mem hm
    · simp [hm]
  have hat : (p.internField name).1.fields[(p.internField name).2] = name := by
    unfold internField
    by_cases hm : name ∈ p.fields
    · simp [hm]
    · simp [hm]
  refine ⟨hlt.trans_le h.length_le, ?_⟩
  rw [List.getD_eq_getElem?_getD, List.prefix_iff_getElem?.mp h _ hlt, hat, Option.getD_some]

theorem internPattern_spec (q p : Program) (pattern : String)
    (h : (p.internPattern pattern).1.patterns <+: q.patterns) :
    (p.internPattern pattern).2 < q.patterns.length ∧
      q.patterns.getD (p.internPattern pattern).2 [] = parseLikePattern pattern := by
  have hlt : (p.internPattern pattern).2 < (p.internPattern pattern).1.patterns.length := by
    unfold internPattern
    by_cases hm : parseLikePattern pattern ∈ p.patterns
    · simpa [hm] using List.idxOf_lt_length_of_mem hm
    · simp [hm]
  have hat : (p.internPattern pattern).1.patterns[(p.internPattern pattern).2] =
      parseLikePattern pattern := by
    unfold internPattern
    by_cases hm : parseLikePattern pattern ∈ p.patterns
    · simp [hm]
    · simp [hm]
  refine ⟨hlt.trans_le h.length_le, ?_⟩
  rw [List.getD_eq_getElem?_getD, List.prefix_iff_getElem?.mp h _ hlt, hat, Option.getD_some]

@[simp] theorem ops_internField (p : Program) (name : String) :
    (p.internField name).1.ops = p.ops := by
  unfold internField
  split <;> rfl

@[simp] theorem ops_internPattern (p : Program) (pattern : String) :
    (p.internPattern pattern).1.ops = p.ops := by
  unfold internPattern
  dsimp only
  split <;> rfl

/-- The code of an expression in value position pushes its value. -/
theorem reaches_emitValue {q : Program} (rec : Record) (truths : List Truth) :
    (e : Expr) → {p : Program} → Holds q p (p.emitValue e) → (vals : List (Option Value)) →
      Reaches q rec ⟨p.ops.length, vals, truths⟩
        ⟨(p.emitValue e).ops.length, e.value rec :: vals, truths⟩
  | .literal v, p, h, vals => .one (h.last (.refl p)) trivial (by
      simp [step, Machine.pushValue, emitValue, Expr.value])
  | .field name, p, h, vals => by
    obtain ⟨hlt, hat⟩ := internField_spec _ p name h.fields
    have hop := h.last (prefix_internField p name)
    rw [ops_internField] at hop
    refine .one hop hlt ?_
    simp only [step, Machine.pushValue, emitValue, length_push, ops_internField, hat, Expr.value]
  | .arith op lhs rhs, p, h, vals => by
    have hl := prefix_emitValue p lhs
    have hr := prefix_emitValue (p.emitValue lhs) rhs
    refine (reaches_emitValue rec truths lhs (h.init.left hr) vals).trans ?_
    refine (reaches_emitValue rec truths rhs (h.init.right hl) _).trans ?_
    refine .one (h.last (hl.trans hr)) (by simp [Supplied]) ?_
    have hval : applyArith op (lhs.value rec) (rhs.value rec) = (Expr.arith op lhs rhs).value rec := by
      rw [Expr.value]
      cases lhs.value rec <;> cases rhs.value rec <;> rfl
    simp only [step, popValue, hval, emitValue, length_push]
  | .compare .., p, h, vals | .and _, p, h, vals | .or _, p, h, vals | .not _, p, h, vals
  | .isNull _, p, h, vals | .isNotNull _, p, h, vals | .within .., p, h, vals
  | .like .., p, h, vals => .one (h.last (.refl p)) trivial (by
      simp [step, Machine.pushValue, emitValue, Expr.value])

theorem reaches_emitValues {q : Program} (rec : Record) (truths : List Truth) (es : List Expr)
    {p : Program} (h : Holds q p (es.foldl emitValue p)) (vals : List (Option Value)) :
    Reaches q rec ⟨p.ops.length, vals, truths⟩
      ⟨(es.foldl emitValue p).ops.length, (es.map (·.value rec)).reverse ++ vals, truths⟩ := by
  induction es generalizing p vals with
  | nil => exact .refl _
  | cons e es ih =>
    have he := prefix_emitValue p e
    have hes := prefix_emitValues (p.emitValue e) es
    rw [List.foldl_cons] at h ⊢
    refine (reaches_emitValue rec truths e (h.left hes) vals).trans ?_
    simpa using ih (h.right he) (e.value rec :: vals)

/-! ## Folds -/

def fold3 (isAnd : Bool) : Truth → Truth → Truth := if isAnd then and3 else or3

/-- The truth a fold jumps on: the rest cannot change it. -/
def absorbing (isAnd : Bool) : Truth := .ofBool (!isAnd)

theorem foldl_absorbing (isAnd : Bool) (ts : List Truth) :
    ts.foldl (fold3 isAnd) (absorbing isAnd) = absorbing isAnd := by
  induction ts with
  | nil => rfl
  | cons t ts ih =>
    have ht : fold3 isAnd (absorbing isAnd) t = absorbing isAnd := by
      cases isAnd <;> cases t <;> rfl
    rw [List.foldl_cons, ht, ih]

/-- The loops of the tree walker are left folds. -/
theorem conjunction_eq (saw : Bool) (ts : List Truth) :
    conjunction saw ts = ts.foldl and3 (if saw then .unknown else .true) := by
  induction ts generalizing saw with
  | nil => rfl
  | cons t ts ih =>
    cases t with
    | true => cases saw <;> exact ih _
    | unknown => cases saw <;> exact ih true
    | false =>
      rw [conjunction, List.foldl_cons]
      have := foldl_absorbing Bool.true ts
      cases saw <;> exact this.symm

theorem disjunction_eq (saw : Bool) (ts : List Truth) :
    disjunction saw ts = ts.foldl or3 (if saw then .unknown else .false) := by
  induction ts generalizing saw with
  | nil => rfl
  | cons t ts ih =>
    cases t with
    | false => cases saw <;> exact ih _
    | unknown => cases saw <;> exact ih true
    | true =>
      rw [disjunction, List.foldl_cons]
      have := foldl_absorbing Bool.false ts
      cases saw <;> exact this.symm

/-- The jump after an operand, taken or not. -/
theorem step_jumpOp (q : Program) (rec : Record) (m : Machine) (isAnd : Bool) (target : ℕ)
    (t : Truth) (truths : List Truth) (hm : m.truths = t :: truths) :
    q.step rec m (jumpOp isAnd target) =
      if t = absorbing isAnd then { m with pc := target } else { m with pc := m.pc + 1 } := by
  cases isAnd <;> simp [jumpOp, step, Machine.jumpIf, hm, absorbing, Truth.ofBool]

theorem supplied_jumpOp {q : Program} {m : Machine} {target : ℕ} (isAnd : Bool)
    (hm : 0 < m.truths.length) (hpc : m.pc < target) (ht : target ≤ q.ops.length) :
    q.Supplied m (jumpOp isAnd target) := by
  cases isAnd <;> exact ⟨hm, hpc, ht⟩

theorem step_foldOp (q : Program) (rec : Record) (pc : ℕ) (vals : List (Option Value))
    (isAnd : Bool) (a b : Truth) (truths : List Truth) :
    q.step rec ⟨pc, vals, b :: a :: truths⟩ (foldOp isAnd) =
      ⟨pc + 1, vals, fold3 isAnd a b :: truths⟩ := by
  cases isAnd <;> rfl

/-- `q` holds the code between `p` and `p'` with the jumps at `patches` pointing to its end. -/
structure HoldsPatched (q p p' : Program) (isAnd : Bool) (patches : List ℕ) : Prop where
  ops : ∀ i, p.ops.length ≤ i → i < p'.ops.length → i ∉ patches → q.ops[i]? = p'.ops[i]?
  jumps : ∀ i ∈ patches, q.ops[i]? = some (jumpOp isAnd p'.ops.length)
  fields : p'.fields <+: q.fields
  patterns : p'.patterns <+: q.patterns
  length : p'.ops.length ≤ q.ops.length

/-- Code that lies before every jump is there as it was emitted. -/
theorem HoldsPatched.left {q p p' r : Program} {isAnd : Bool} {patches : List ℕ}
    (h : HoldsPatched q p r isAnd patches) (hp : Prefix p' r)
    (hn : ∀ i ∈ patches, p'.ops.length ≤ i) : Holds q p p' := by
  refine ⟨fun i hl hi => ?_, hp.fields.trans h.fields, hp.patterns.trans h.patterns,
    hp.ops.length_le.trans h.length⟩
  rw [h.ops i hl (hi.trans_le hp.ops.length_le) fun hm => Nat.not_le.mpr hi (hn i hm),
    List.getElem?_eq_getElem hi]
  exact List.prefix_iff_getElem?.mp hp.ops i hi

/-- What follows the first jump is held with the remaining jumps. -/
theorem HoldsPatched.tail {q p p' r : Program} {isAnd : Bool} {i : ℕ} {patches : List ℕ}
    (h : HoldsPatched q p r isAnd (i :: patches)) (hp : Prefix p p') (hi : i < p'.ops.length) :
    HoldsPatched q p' r isAnd patches where
  ops j hl hj hn := h.ops j (hp.ops.length_le.trans hl) hj (by
    simp only [List.mem_cons, not_or]
    exact ⟨by omega, hn⟩)
  jumps j hj := h.jumps j (List.mem_cons_of_mem _ hj)
  fields := h.fields
  patterns := h.patterns
  length := h.length

theorem HoldsPatched.right {q p p' r : Program} {isAnd : Bool} {patches : List ℕ}
    (h : HoldsPatched q p r isAnd patches) (hp : Prefix p p') : HoldsPatched q p' r isAnd patches :=
  ⟨fun j hl => h.ops j (hp.ops.length_le.trans hl), h.jumps, h.fields, h.patterns, h.length⟩

/-- At each returned position `emitRest` left an unpatched jump. -/
theorem emitRest_jumps (rest : List Expr) (isAnd : Bool) (p : Program) :
    ∀ i ∈ (p.emitRest rest isAnd).2,
      (p.emitRest rest isAnd).1.ops[i]? = some (jumpOp isAnd placeholder) := by
  induction rest generalizing p with
  | nil =>
    intro i hi
    cases hi
  | cons part rest ih =>
    intro i hi
    rw [emitRest] at hi ⊢
    rcases List.mem_cons.mp hi with rfl | hi
    · have hpart := (prefix_emitPred (p.push (jumpOp isAnd placeholder)) part).push (foldOp isAnd)
      have hrest := (prefix_emitRest
        (((p.push (jumpOp isAnd placeholder)).emitPred part).push (foldOp isAnd)) rest isAnd).1
      have hlt : p.ops.length < (p.push (jumpOp isAnd placeholder)).ops.length := by simp
      rw [List.prefix_iff_getElem?.mp (hpart.trans hrest).ops _ hlt]
      simp [Program.push]
    · exact ih _ i hi

theorem retarget_jumpOp (isAnd : Bool) (target old : ℕ) :
    retarget target (jumpOp isAnd old) = jumpOp isAnd target := by
  cases isAnd <;> rfl

/-- A patched fold in place holds its operands with patched jumps. -/
theorem Holds.patched {q p p' : Program} {isAnd : Bool} {patches : List ℕ}
    (h : Holds q p (p'.patch patches)) (hl : ∀ i ∈ patches, p.ops.length ≤ i)
    (hj : ∀ i ∈ patches, p'.ops[i]? = some (jumpOp isAnd placeholder)) :
    HoldsPatched q p p' isAnd patches where
  ops i hpi hi hn := by
    rw [h.ops i hpi (by simpa using hi), patch_getElem?, if_neg hn]
  jumps i hi := by
    have hlt : i < p'.ops.length := (List.getElem?_eq_some_iff.mp (hj i hi)).1
    rw [h.ops i (hl i hi) (by simpa using hlt), patch_getElem?, if_pos hi, hj i hi,
      Option.map_some, retarget_jumpOp]
  fields := h.fields
  patterns := h.patterns
  length := by simpa using h.length

/-- An instruction that turns the topmost value into a truth. -/
theorem reaches_test {q p : Program} {rec : Record} {op : Op} {f : Option Value → Truth}
    (e : Expr) (h : Holds q p ((p.emitValue e).push op)) (vals : List (Option Value))
    (truths : List Truth) (hs : ∀ m : Machine, 1 ≤ m.vals.length → q.Supplied m op)
    (hstep : ∀ m : Machine, q.step rec m op = m.test f) :
    Reaches q rec ⟨p.ops.length, vals, truths⟩
      ⟨((p.emitValue e).push op).ops.length, vals, f (e.value rec) :: truths⟩ := by
  refine (reaches_emitValue rec truths e h.init vals).trans ?_
  refine .one (h.last (prefix_emitValue p e)) (hs _ (by simp)) ?_
  simp [hstep, Machine.test, popValue]

mutual

/-- The code of an expression in predicate position pushes its truth. -/
theorem reaches_emitPred {q : Program} (rec : Record) :
    (e : Expr) → {p : Program} → Holds q p (p.emitPred e) → (vals : List (Option Value)) →
      (truths : List Truth) → Reaches q rec ⟨p.ops.length, vals, truths⟩
        ⟨(p.emitPred e).ops.length, vals, e.evaluate rec :: truths⟩
  | .literal .null, p, h, vals, truths | .literal (.bool _), p, h, vals, truths =>
    .one (h.last (.refl p)) trivial (by simp [step, emitPred, Expr.evaluate])
  | .literal (.i64 _), p, h, vals, truths | .literal (.u64 _), p, h, vals, truths
  | .literal (.f64 _), p, h, vals, truths | .literal (.decimal ..), p, h, vals, truths
  | .literal (.timestamp _), p, h, vals, truths | .literal (.str _), p, h, vals, truths
  | .literal (.bytes _), p, h, vals, truths | .literal (.list _), p, h, vals, truths
  | .literal (.map _), p, h, vals, truths =>
    reaches_test _ h vals truths (fun _ hm => hm) fun _ => rfl
  | .field _, p, h, vals, truths => reaches_test _ h vals truths (fun _ hm => hm) fun _ => rfl
  | .arith .., p, h, vals, truths => reaches_test _ h vals truths (fun _ hm => hm) fun _ => rfl
  | .isNull inner, p, h, vals, truths =>
    reaches_test inner h vals truths (fun _ hm => hm) fun _ => rfl
  | .isNotNull inner, p, h, vals, truths =>
    reaches_test (f := fun v => (nullTest v).not) inner h vals truths (fun _ hm => hm) fun _ => rfl
  | .compare op lhs rhs, p, h, vals, truths => by
    have hl := prefix_emitValue p lhs
    have hr := prefix_emitValue (p.emitValue lhs) rhs
    have hinit := Holds.init h
    refine (reaches_emitValue rec truths lhs (hinit.left hr) vals).trans ?_
    refine (reaches_emitValue rec truths rhs (hinit.right hl) _).trans ?_
    refine .one (Holds.last h (hl.trans hr)) (by simp [Supplied]) ?_
    simp [step, popValue, emitPred, Expr.evaluate]
  | .not inner, p, h, vals, truths => by
    refine (reaches_emitPred rec inner (Holds.init h) vals truths).trans ?_
    refine .one (Holds.last h (prefix_emitPred p inner)) (by simp [Supplied]) ?_
    simp [step, popTruth, emitPred, Expr.evaluate]
  | .within needle list, p, h, vals, truths => by
    have hn := prefix_emitValue p needle
    have hes := prefix_emitValues (p.emitValue needle) list
    have hinit := Holds.init h
    refine (reaches_emitValue rec truths needle (hinit.left hes) vals).trans ?_
    refine (reaches_emitValues rec truths list (hinit.right hn) _).trans ?_
    refine .one (Holds.last h (hn.trans hes)) (by simp [Supplied]) ?_
    have hlen : (list.map (·.value rec)).reverse.length = list.length := by simp
    simp [step, emitPred, Expr.evaluate, popValue, List.take_left' hlen, List.drop_left' hlen]
  | .like text pattern, p, h, vals, truths => by
    have ht := prefix_emitValue p text
    have hp := prefix_internPattern (p.emitValue text) pattern
    obtain ⟨hlt, hat⟩ := internPattern_spec q (p.emitValue text) pattern
      h.patterns
    have hop := Holds.last h (ht.trans hp)
    rw [ops_internPattern] at hop
    refine (reaches_emitValue rec truths text ((Holds.init h).left hp) vals).trans ?_
    refine .one hop ⟨hlt, by simp⟩ ?_
    simp only [step, Machine.test, popValue, hat, emitPred, length_push, ops_internPattern,
      Expr.evaluate, likeMatches]
  | .and parts, p, h, vals, truths => by
    have := reaches_emitFold rec parts Bool.true h vals truths
    rwa [Expr.evaluate, conjunction_eq]
  | .or parts, p, h, vals, truths => by
    have := reaches_emitFold rec parts Bool.false h vals truths
    rwa [Expr.evaluate, disjunction_eq]

theorem reaches_emitFold {q : Program} (rec : Record) :
    (parts : List Expr) → (isAnd : Bool) → {p : Program} → Holds q p (p.emitFold parts isAnd) →
      (vals : List (Option Value)) → (truths : List Truth) →
      Reaches q rec ⟨p.ops.length, vals, truths⟩ ⟨(p.emitFold parts isAnd).ops.length, vals,
        (Expr.evaluateAll rec parts).foldl (fold3 isAnd) (.ofBool isAnd) :: truths⟩
  | [], isAnd, p, h, vals, truths =>
    .one (h.last (.refl p)) trivial (by simp [step, emitFold, Expr.evaluateAll])
  | part :: rest, isAnd, p, h, vals, truths => by
    have hpart := prefix_emitPred p part
    have hrest := prefix_emitRest (p.emitPred part) rest isAnd
    have hp : HoldsPatched q p _ isAnd _ := Holds.patched h
      (fun i hi => hpart.ops.length_le.trans (hrest.2 i hi).1)
      (emitRest_jumps rest isAnd (p.emitPred part))
    refine (reaches_emitPred rec part
      (hp.left hrest.1 fun i hi => (hrest.2 i hi).1) vals truths).trans ?_
    have hfirst : fold3 isAnd (.ofBool isAnd) (part.evaluate rec) = part.evaluate rec := by
      cases isAnd <;> cases part.evaluate rec <;> rfl
    have := reaches_emitRest rec rest isAnd (hp.right hpart) (part.evaluate rec) vals truths
    simpa only [emitFold, length_patch, Expr.evaluateAll, List.foldl_cons, hfirst] using this

theorem reaches_emitRest {q : Program} (rec : Record) :
    (rest : List Expr) → (isAnd : Bool) → {p : Program} →
      HoldsPatched q p (p.emitRest rest isAnd).1 isAnd (p.emitRest rest isAnd).2 →
      (acc : Truth) → (vals : List (Option Value)) → (truths : List Truth) →
      Reaches q rec ⟨p.ops.length, vals, acc :: truths⟩
        ⟨(p.emitRest rest isAnd).1.ops.length, vals,
          (Expr.evaluateAll rec rest).foldl (fold3 isAnd) acc :: truths⟩
  | [], isAnd, p, h, acc, vals, truths => .refl _
  | part :: rest, isAnd, p, h, acc, vals, truths => by
    have hjump := (Prefix.refl p).push (jumpOp isAnd placeholder)
    have hpart := prefix_emitPred (p.push (jumpOp isAnd placeholder)) part
    have hfold := hpart.push (foldOp isAnd)
    have hrest := prefix_emitRest
      (((p.push (jumpOp isAnd placeholder)).emitPred part).push (foldOp isAnd)) rest isAnd
    rw [emitRest] at h ⊢
    have hend := (hfold.trans hrest.1).ops.length_le
    rw [length_push] at hend
    have hop := h.jumps p.ops.length List.mem_cons_self
    have hsup := supplied_jumpOp (m := ⟨p.ops.length, vals, acc :: truths⟩) isAnd
      (Nat.succ_pos _) hend h.length
    have hstep := step_jumpOp q rec ⟨p.ops.length, vals, acc :: truths⟩ isAnd
      ((((p.push (jumpOp isAnd placeholder)).emitPred part).push (foldOp isAnd)).emitRest
        rest isAnd).1.ops.length acc truths rfl
    by_cases hacc : acc = absorbing isAnd
    · rw [if_pos hacc] at hstep
      refine .one hop hsup ?_
      rw [hstep, hacc, foldl_absorbing]
    · rw [if_neg hacc] at hstep
      refine (Reaches.one hop hsup hstep).trans ?_
      have htail := h.tail hjump (by simp)
      have hheld := htail.left hrest.1 fun i hi => (hrest.2 i hi).1
      have hone := reaches_emitPred rec part hheld.init vals (acc :: truths)
      rw [length_push] at hone
      refine hone.trans ?_
      refine (Reaches.one (hheld.last hpart) (by cases isAnd <;> simp [foldOp, Supplied])
        (step_foldOp q rec _ vals isAnd acc (part.evaluate rec) truths)).trans ?_
      have := reaches_emitRest rec rest isAnd (htail.right hfold)
        (fold3 isAnd acc (part.evaluate rec)) vals truths
      simpa only [length_push, Expr.evaluateAll, List.foldl_cons] using this

end

/-! ## Whole runs -/

theorem pc_lt_jumpIf (m : Machine) (t : Truth) {target : ℕ} (h : m.pc < target) :
    m.pc < (m.jumpIf t target).pc := by
  unfold Machine.jumpIf
  split
  · exact h
  · exact Nat.lt_succ_self _

theorem Supplied.pc_lt {q : Program} {m : Machine} {op : Op} (h : q.Supplied m op) (rec : Record) :
    m.pc < (q.step rec m op).pc := by
  cases op with
  | jumpIfFalse target => exact pc_lt_jumpIf m .false h.2.1
  | jumpIfTrue target => exact pc_lt_jumpIf m .true h.2.1
  | _ => exact Nat.lt_succ_self _

theorem exec_halted (q : Program) (rec : Record) {m : Machine} (hm : q.ops.length ≤ m.pc) (n : ℕ) :
    q.exec rec n m = m := by
  cases n with
  | zero => rfl
  | succ n => rw [exec, List.getElem?_eq_none hm]

/-- A run that halts does so within as many steps as the counter moves. -/
theorem Reaches.exec {q : Program} {rec : Record} {m m' : Machine} (h : Reaches q rec m m')
    (hm : q.ops.length ≤ m'.pc) {n : ℕ} (hn : m'.pc ≤ m.pc + n) : q.exec rec n m = m' := by
  induction h generalizing n with
  | refl => exact exec_halted q rec hm n
  | @step m m' op hop hs h ih =>
    have hlt := (List.getElem?_eq_some_iff.mp hop).1
    have hpc := hs.pc_lt rec
    cases n with
    | zero => omega
    | succ n =>
      rw [Program.exec, hop]
      exact ih hm (by omega)

/-- On the way to a halt, no instruction lacks an operand. -/
theorem Reaches.supplied {q : Program} {rec : Record} {m m' : Machine} (h : Reaches q rec m m')
    (hm : q.ops.length ≤ m'.pc) (n : ℕ) {op : Op}
    (hop : q.ops[(q.exec rec n m).pc]? = some op) : q.Supplied (q.exec rec n m) op := by
  induction h generalizing n with
  | refl m =>
    rw [exec_halted q rec hm, List.getElem?_eq_none hm] at hop
    cases hop
  | step hop' hs _ ih =>
    cases n with
    | zero =>
      rw [Program.exec, hop'] at hop
      exact Option.some.inj hop ▸ hs
    | succ n =>
      rw [Program.exec, hop'] at hop ⊢
      exact ih hm n hop

theorem reaches_compile (e : Expr) (rec : Record) :
    Reaches (compile e) rec start ⟨(compile e).ops.length, [], [e.evaluate rec]⟩ := by
  have hheld : Holds (compile e) empty (empty.emitPred e) :=
    ⟨fun _ _ _ => rfl, List.prefix_rfl, List.prefix_rfl, le_rfl⟩
  exact reaches_emitPred rec e hheld [] []

theorem exec_compile (e : Expr) (rec : Record) :
    (compile e).exec rec (compile e).ops.length start =
      ⟨(compile e).ops.length, [], [e.evaluate rec]⟩ :=
  (reaches_compile e rec).exec le_rfl (by simp [start])

theorem run_compile (e : Expr) (rec : Record) : (compile e).run rec = e.evaluate rec := by
  rw [run, exec_compile]
  rfl

end Program

end Adabt.Ir
