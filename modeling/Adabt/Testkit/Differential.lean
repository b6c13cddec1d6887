import Adabt.Library.Lockstep
import Adabt.Testkit.Reference

/-! # The differential runner

Two stores are driven through the same operations, and the first operation on which
their outcomes differ is reported. Outcomes compare kinds of errors, never their
texts. A failing sequence is shrunk to its shortest prefix that still fails. -/

set_option autoImplicit false

namespace Adabt.Testkit
open Adabt.Core Adabt.Library

/-! ## Operations and outcomes -/

inductive Op where
  | insert (collection : String) (id : RecordId) (rec : Record)
  | get (collection : String) (id : RecordId)
  | update (collection : String) (id : RecordId) (rec : Record)
  | delete (collection : String) (id : RecordId)
  | scan (collection : String)
  | count (collection : String)

/-- The granularity at which two correct implementations are required to agree. -/
inductive ErrKind where
  | noSuchCollection
  | collectionExists
  | recordExists
  | schema
  | other
  deriving DecidableEq, Repr

def ErrKind.of : Error → ErrKind
  | .noSuchCollection _ => .noSuchCollection
  | .collectionExists _ => .collectionExists
  | .recordExists _ => .recordExists
  | .schema _ => .schema
  | _ => .other

inductive OpOutcome where
  | unit
  | fetched (rec : Option Record)
  | existed (existed : Bool)
  | rows (rows : List (RecordId × Record))
  | count (count : ℕ)
  | failed (kind : ErrKind)

namespace OpOutcome

/-- `PartialEq for OpOutcome`. -/
def Eqv : OpOutcome → OpOutcome → Prop
  | unit, unit => True
  | fetched none, fetched none => True
  | fetched (some a), fetched (some b) => a.Eqv b
  | existed a, existed b => a = b
  | rows a, rows b => List.Forall₂ (fun p q => p.1 = q.1 ∧ p.2.Eqv q.2) a b
  | count a, count b => a = b
  | failed a, failed b => a = b
  | _, _ => False

instance (a b : OpOutcome) : Decidable (a.Eqv b) := by
  unfold Eqv
  split <;> infer_instance

variable {α : Type}

def wrap (r : Except Error α) (ok : α → OpOutcome) : OpOutcome :=
  match r with
  | .ok v => ok v
  | .error e => failed (ErrKind.of e)

end OpOutcome

variable {σ τ : Type}

/-- Apply an operation to a store and classify the result. -/
def apply (S : LogicalStore σ) (op : Op) (s : σ) : OpOutcome × σ :=
  match op with
  | .insert collection id rec =>
    (.wrap (result (S.insert collection id rec) s) fun _ => .unit,
      exec (S.insert collection id rec) s)
  | .get collection id => (.wrap (S.get s collection id) .fetched, s)
  | .update collection id rec =>
    (.wrap (result (S.update collection id rec) s) .existed, exec (S.update collection id rec) s)
  | .delete collection id =>
    (.wrap (result (S.delete collection id) s) .existed, exec (S.delete collection id) s)
  | .scan collection => (.wrap (S.scan s collection) .rows, s)
  | .count collection => (.wrap (S.count s collection) .count, s)

/-! ## Comparing -/

structure Divergence where
  step : ℕ
  op : Op
  left : OpOutcome
  right : OpOutcome

variable (left : LogicalStore σ) (right : LogicalStore τ)

def compareOp (numbered : Op × ℕ) : EStateM Divergence (σ × τ) Unit := do
  let (s, t) ← get
  let l := apply left numbered.1 s
  let r := apply right numbered.1 t
  set (l.2, r.2)
  if l.1.Eqv r.1 then return () else throw ⟨numbered.2, numbered.1, l.1, r.1⟩

/-- Run the operations through both stores, stopping at the first disagreement. -/
def compare (ops : List Op) : EStateM Divergence (σ × τ) ℕ := do
  forEach (compareOp left right) ops.zipIdx
  return ops.length

/-- What a run answers. -/
def outcomes (S : LogicalStore σ) : σ → List Op → List OpOutcome := answers (apply S)

/-- Both runs answer alike, operation by operation. -/
def Agree (s : σ) (t : τ) (ops : List Op) : Prop :=
  List.Forall₂ OpOutcome.Eqv (outcomes left s ops) (outcomes right t ops)

instance (s : σ) (t : τ) (ops : List Op) : Decidable (Agree left right s t ops) :=
  inferInstanceAs (Decidable (List.Forall₂ _ _ _))

variable {left right}

theorem agree_cons {s : σ} {t : τ} {op : Op} {ops : List Op} : Agree left right s t (op :: ops) ↔
    (apply left op s).1.Eqv (apply right op t).1 ∧
      Agree left right (apply left op s).2 (apply right op t).2 ops := List.forall₂_cons

theorem agree_append {s : σ} {t : τ} (xs ys : List Op) :
    Agree left right s t (xs ++ ys) → Agree left right s t xs := by
  induction xs generalizing s t with
  | nil => exact fun _ => .nil
  | cons op xs ih =>
    rw [List.cons_append, agree_cons, agree_cons]
    exact fun h => ⟨h.1, ih h.2⟩

/-- The state after the operations. -/
def after (S : LogicalStore σ) : σ → List Op → σ := run (advance (apply S))

/-- The report names the first operation that was answered differently, and both answers. -/
structure Divergence.Reports (d : Divergence) (left : LogicalStore σ) (right : LogicalStore τ)
    (s : σ) (t : τ) (ops : List Op) (first : ℕ) : Prop where
  step : first ≤ d.step
  op : ops[d.step - first]? = some d.op
  before : Agree left right s t (ops.take (d.step - first))
  left : d.left = (apply left d.op (after left s (ops.take (d.step - first)))).1
  right : d.right = (apply right d.op (after right t (ops.take (d.step - first)))).1
  differ : ¬ d.left.Eqv d.right

theorem compareFrom_spec (ops : List Op) (first : ℕ) (s : σ) (t : τ) :
    Post (forEach (compareOp left right) (ops.zipIdx first)) (s, t)
      (fun _ _ => Agree left right s t ops) fun d _ => d.Reports left right s t ops first := by
  induction ops generalizing first s t with
  | nil => exact .nil
  | cons op ops ih =>
    rw [List.zipIdx_cons, forEach, post_bind]
    unfold compareOp
    simp only [post_bind, post_get, post_set]
    split_ifs with h
    · refine (ih (first + 1) _ _).mono (fun _ _ hagree => agree_cons.mpr ⟨h, hagree⟩)
        fun d _ hd => ?_
      obtain ⟨k, hk⟩ := Nat.exists_eq_add_of_le hd.step
      have hi : d.step - (first + 1) = k := by omega
      have hi' : d.step - first = k + 1 := by omega
      have hop := hd.op
      have hbefore := hd.before
      have hleft := hd.left
      have hright := hd.right
      rw [hi] at hop hbefore hleft hright
      refine ⟨by omega, ?_, ?_, ?_, ?_, hd.differ⟩
      · rw [hi', List.getElem?_cons_succ, hop]
      · rw [hi', List.take_succ_cons, agree_cons]
        exact ⟨h, hbefore⟩
      · rw [hi', List.take_succ_cons]
        exact hleft
      · rw [hi', List.take_succ_cons]
        exact hright
    · refine ⟨Nat.le_refl _, ?_, ?_, ?_, ?_, h⟩
      · rw [Nat.sub_self]
        rfl
      · rw [Nat.sub_self]
        exact .nil
      · rw [Nat.sub_self]
        rfl
      · rw [Nat.sub_self]
        rfl

variable (left right) in
theorem compare_spec (ops : List Op) (s : σ) (t : τ) :
    Post (compare left right ops) (s, t)
      (fun n _ => n = ops.length ∧ Agree left right s t ops)
      fun d _ => d.Reports left right s t ops 0 := by
  unfold compare
  rw [post_bind]
  exact (compareFrom_spec ops 0 s t).mono (fun _ _ h => ⟨rfl, h⟩) fun _ _ h => h

theorem Agree.getElem {s : σ} {t : τ} {ops : List Op} (h : Agree left right s t ops) {i : ℕ}
    {op : Op} (hi : ops[i]? = some op) : (apply left op (after left s (ops.take i))).1.Eqv
      (apply right op (after right t (ops.take i))).1 := by
  induction ops generalizing s t i with
  | nil => cases hi
  | cons o ops ih =>
    obtain ⟨hfirst, hrest⟩ := agree_cons.mp h
    cases i with
    | zero =>
      obtain rfl := Option.some.inj hi
      exact hfirst
    | succ i => exact ih hrest hi

theorem Divergence.Reports.disagree {d : Divergence} {s : σ} {t : τ} {ops : List Op}
    (h : d.Reports left right s t ops 0) : ¬ Agree left right s t ops := fun ha => by
  have heqv := ha.getElem h.op
  rw [← h.left, ← h.right] at heqv
  exact h.differ heqv

/-! ## Shrinking -/

variable (left right)

/-- Whether a prefix of this length makes two fresh stores differ. -/
def diverges (fresh : σ × τ) (ops : List Op) (n : ℕ) : Bool :=
  match result (compare left right (ops.take n)) fresh with
  | .ok _ => false
  | .error _ => true

/-- Halve the gap between a prefix that agrees and one that diverges. -/
def shrinkLoop (diverges : ℕ → Bool) (lo hi : ℕ) : ℕ :=
  if lo + 1 < hi then
    let mid := lo + (hi - lo) / 2
    if diverges mid then shrinkLoop diverges lo mid else shrinkLoop diverges mid hi
  else hi
termination_by hi - lo

/-- Shrink a failing sequence to a shorter prefix that still diverges. -/
def shrinkPrefix (fresh : σ × τ) (ops : List Op) : List Op :=
  if diverges left right fresh ops ops.length then
    ops.take (shrinkLoop (diverges left right fresh ops) 0 ops.length)
  else ops

variable {left right}

variable (left right) in
theorem diverges_iff (fresh : σ × τ) (ops : List Op) (n : ℕ) :
    diverges left right fresh ops n = true ↔ ¬ Agree left right fresh.1 fresh.2 (ops.take n) := by
  have hspec := compare_spec left right (ops.take n) fresh.1 fresh.2
  unfold diverges result
  unfold Post at hspec
  cases hc : compare left right (ops.take n) fresh with
  | ok k s' =>
    rw [Prod.mk.eta, hc] at hspec
    simp [hspec.2]
  | error d s' =>
    rw [Prod.mk.eta, hc] at hspec
    simp [hspec.disagree]

/-- The search keeps an agreeing prefix below and a diverging one above. -/
theorem shrinkLoop_least {p : ℕ → Bool} (hmono : ∀ m n, m ≤ n → p m = true → p n = true)
    (lo hi : ℕ) (hlt : lo < hi) (hlo : p lo = false) (hhi : p hi = true) :
    shrinkLoop p lo hi ≤ hi ∧ p (shrinkLoop p lo hi) = true ∧
      ∀ m < shrinkLoop p lo hi, p m = false := by
  fun_induction shrinkLoop p lo hi with
  | case1 lo hi hgap mid hmid ih =>
    obtain ⟨hle, hp, hleast⟩ := ih (by omega) hlo hmid
    exact ⟨by omega, hp, hleast⟩
  | case2 lo hi hgap mid hmid ih => exact ih (by omega) (by simpa using hmid) hhi
  | case3 lo hi hgap =>
    refine ⟨Nat.le_refl _, hhi, fun m hm => ?_⟩
    by_contra hp
    have hle : m ≤ lo := by omega
    rw [hmono m lo hle (by simpa using hp)] at hlo
    cases hlo

/-- A failing sequence is shrunk to its shortest prefix that fails: the stores answer it
differently, and every shorter prefix alike. -/
theorem shrinkPrefix_shortest (left : LogicalStore σ) (right : LogicalStore τ) (s : σ) (t : τ)
    (ops : List Op) (h : ¬ Agree left right s t ops) :
    shrinkPrefix left right (s, t) ops <+: ops ∧
      ¬ Agree left right s t (shrinkPrefix left right (s, t) ops) ∧
      ∀ short, short <+: ops → short.length < (shrinkPrefix left right (s, t) ops).length →
        Agree left right s t short := by
  have hiff := diverges_iff left right (s, t) ops
  have hall : diverges left right (s, t) ops ops.length = true :=
    (hiff _).mpr (by rwa [List.take_length])
  have hnone : diverges left right (s, t) ops 0 = false := by
    rw [← Bool.not_eq_true, hiff]
    exact not_not.mpr .nil
  have hmono : ∀ m n, m ≤ n → diverges left right (s, t) ops m = true →
      diverges left right (s, t) ops n = true := by
    intro m n hmn hm
    rw [hiff] at hm ⊢
    refine fun hagree => hm ?_
    rw [← Nat.min_eq_left hmn, ← List.take_take]
    rw [← List.take_append_drop m (ops.take n)] at hagree
    exact agree_append _ _ hagree
  have hpos : 0 < ops.length := by
    rcases Nat.eq_zero_or_pos ops.length with hz | hpos
    · rw [hz, hnone] at hall
      cases hall
    · exact hpos
  obtain ⟨hle, hp, hleast⟩ := shrinkLoop_least hmono 0 ops.length hpos hnone hall
  rw [shrinkPrefix, if_pos hall]
  refine ⟨List.take_prefix _ _, (hiff _).mp hp, fun short hshort hlen => ?_⟩
  rw [List.length_take, Nat.min_eq_left hle] at hlen
  have hagree := hleast short.length hlen
  rw [← Bool.not_eq_true, hiff, not_not, ← List.prefix_iff_eq_take.mp hshort] at hagree
  exact hagree

/-- A store that acknowledges one record id and does not store it. -/
def buggyStore : LogicalStore ReferenceStore :=
  { ReferenceStore.store with
    insert := fun collection id rec =>
      if id = 3 then return () else ReferenceStore.insert collection id rec }

def events : ReferenceStore := exec (ReferenceStore.createCollection "events" .dynamic) .new

def planted : List Op :=
  [.insert "events" 1 ∅, .get "events" 3, .insert "events" 3 ∅, .insert "events" 2 ∅,
    .scan "events", .count "events"]

theorem shrinkPrefix_planted :
    shrinkPrefix ReferenceStore.store buggyStore (events, events) planted <+: planted ∧
      ¬ Agree ReferenceStore.store buggyStore events events
        (shrinkPrefix ReferenceStore.store buggyStore (events, events) planted) ∧
      ∀ short, short <+: planted →
        short.length <
          (shrinkPrefix ReferenceStore.store buggyStore (events, events) planted).length →
        Agree ReferenceStore.store buggyStore events events short :=
  shrinkPrefix_shortest ReferenceStore.store buggyStore events events planted (by decide +kernel)

/-! ## Simulation -/

/-- Both calls end alike: with one value, or with errors of one kind. -/
def Alike {α : Type} (R : σ → τ → Prop) (x : EStateM Error σ α) (s : σ) (y : EStateM Error τ α)
    (t : τ) : Prop :=
  Matched (· = ·) (fun e f => ErrKind.of e = ErrKind.of f) R x s y t

theorem Alike.outcome {α : Type} {R : σ → τ → Prop} {x : EStateM Error σ α} {s : σ}
    {y : EStateM Error τ α} {t : τ} (h : Alike R x s y t) (ok : α → OpOutcome)
    (hok : ∀ a, (ok a).Eqv (ok a)) :
    (OpOutcome.wrap (result x s) ok).Eqv (.wrap (result y t) ok) ∧ R (exec x s) (exec y t) := by
  rcases h.cases with ⟨a, b, hx, hy, rfl, hr⟩ | ⟨e, f, hx, hy, hkind, hr⟩
  · rw [hx, hy]
    exact ⟨hok a, hr⟩
  · rw [hx, hy]
    exact ⟨hkind, hr⟩

/-- The calls of the logical API. -/
inductive Logical where
  | op (op : Op)
  | createCollection (name : String) (schema : Schema)
  | dropCollection (name : String)
  | collectionNames
  | schemaOf (name : String)
  | insertKeyed (name : String) (id : RecordId) (rec : Record) (key : Int64)
  | ids (name : String)

inductive Reply where
  | outcome (o : OpOutcome)
  | names (names : List String)
  | schema (schema : Except ErrKind Schema)
  | ids (ids : Except ErrKind (List RecordId))
  | done

def Reply.Eqv : Reply → Reply → Prop
  | outcome a, outcome b => a.Eqv b
  | names a, names b => a = b
  | schema a, schema b => a = b
  | ids a, ids b => a = b
  | done, done => True
  | _, _ => False

def Logical.reply (S : LogicalStore σ) (c : Logical) (s : σ) : Reply × σ :=
  match c with
  | op o => (.outcome (apply S o s).1, (apply S o s).2)
  | createCollection name schema =>
    (.outcome (.wrap (result (S.createCollection name schema) s) fun _ => .unit),
      exec (S.createCollection name schema) s)
  | dropCollection name =>
    (.outcome (.wrap (result (S.dropCollection name) s) fun _ => .unit),
      exec (S.dropCollection name) s)
  | collectionNames => (.names (S.collectionNames s), s)
  | schemaOf name => (.schema ((S.schemaOf s name).mapError ErrKind.of), s)
  | insertKeyed name id rec key =>
    (.outcome (.wrap (result (S.insertKeyed name id rec key) s) fun _ => .unit),
      exec (S.insertKeyed name id rec key) s)
  | ids name => (.ids ((S.ids s name).mapError ErrKind.of), s)

/-- From related states every admitted call is answered alike, and leads to related states. -/
def Simulates (S : LogicalStore σ) (T : LogicalStore τ) (I : σ → τ → Prop)
    (A : Logical → σ → Prop) : Prop :=
  ∀ c s t, I s t → A c s →
    (c.reply S s).1.Eqv (c.reply T t).1 ∧ I (c.reply S s).2 (c.reply T t).2

variable {υ : Type}

/-- A store, and what runs in it beside the logical calls. -/
structure Maintained (σ υ : Type) extends LogicalStore σ where
  upkeep : υ → σ → σ

inductive Call (υ : Type) where
  | logical (c : Logical)
  | upkeep (u : υ)

/-- A store without anything to keep up. -/
def LogicalStore.idle (S : LogicalStore σ) : Maintained σ υ := { S with upkeep := fun _ => id }

section Runs

variable (S : Maintained σ υ)

def Call.reply (c : Call υ) (s : σ) : Reply × σ :=
  match c with
  | logical c => c.reply S.toLogicalStore s
  | upkeep u => (.done, S.upkeep u s)

def Call.step : Call υ → σ → σ := advance (Call.reply S)

/-- What a run of calls answers. -/
def replies : σ → List (Call υ) → List Reply := answers (Call.reply S)

def Call.Admitted (A : Logical → σ → Prop) (B : υ → σ → Prop) : Call υ → σ → Prop
  | logical c => A c
  | upkeep u => B u

instance (A : Logical → σ → Prop) (B : υ → σ → Prop) [(c : Logical) → (s : σ) → Decidable (A c s)]
    [(u : υ) → (s : σ) → Decidable (B u s)] (c : Call υ) (s : σ) : Decidable (c.Admitted A B s) :=
  match c with
  | .logical c => inferInstanceAs (Decidable (A c s))
  | .upkeep u => inferInstanceAs (Decidable (B u s))

variable {S} {T : LogicalStore τ} {I : σ → τ → Prop} {A : Logical → σ → Prop} {B : υ → σ → Prop}

/-- Whatever calls are made, and whatever upkeep runs between them, both answer alike. -/
theorem Simulates.run (hsim : Simulates S.toLogicalStore T I A)
    (hupkeep : ∀ u s t, I s t → B u s → I (S.upkeep u s) t) {s : σ} {t : τ} (h : I s t)
    (cs : List (Call υ)) (hcs : Guarded (Call.step S) (Call.Admitted A B) s cs) :
    List.Forall₂ Reply.Eqv (replies S s cs) (replies T.idle t cs) ∧
      I (Library.run (Call.step S) s cs) (Library.run (Call.step T.idle) t cs) := by
  refine answers_related (fun c s t h hc => ?_) h cs hcs
  cases c with
  | logical c => exact hsim c s t h hc
  | upkeep u => exact ⟨trivial, hupkeep u s t h hc⟩

/-- Related stores agree on every sequence of operations. -/
theorem Simulates.agree {S : LogicalStore σ} (hsim : Simulates S T I A) {s : σ} {t : τ} (h : I s t)
    (ops : List Op) (hops : Guarded (advance (apply S)) (fun op => A (.op op)) s ops) :
    Agree S T s t ops :=
  (answers_related (f := apply S) (g := apply T) (E := OpOutcome.Eqv)
    (fun op s t h hc => hsim (.op op) s t h hc) h ops hops).1

end Runs

end Adabt.Testkit
