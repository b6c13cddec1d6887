import Adabt.Engine.Journal
import Adabt.Library.Framing
import Adabt.Library.Undo
import Adabt.Testkit.Shards

/-! # Transactions across shards

A coordinator journals the writes of a transaction, applies them shard by shard and
removes the journal. A crash may come at any point of this; what the journal then
holds is applied when the process comes back. -/

set_option autoImplicit false

namespace Adabt.Testkit
open Adabt.Core Adabt.Engine Adabt.Library Adabt.Storage

variable {σ τ υ : Type}

/-- The shards, as one store, and the journal file beside them. -/
structure Coordinator (σ : Type) where
  store : σ
  journal : Option Bytes

namespace Coordinator

abbrev CoordinatorM (σ α : Type) := EStateM Error (Coordinator σ) α

def onShards {α : Type} (x : EStateM Error σ α) : CoordinatorM σ α := fun c =>
  match x c.store with
  | .ok a s => .ok a { c with store := s }
  | .error e s => .error e { c with store := s }

section Programs

variable (S : LogicalStore σ)

/-- A record is put by hand: it is inserted under a fresh id and overwrites what another id
holds. A delete that fails is passed over. -/
def applyWrite (w : CrossShardWrite) : EStateM Error σ Unit := fun s =>
  match w.record with
  | some r =>
    match S.insert w.collection w.id r s with
    | .ok _ s => .ok () s
    | .error _ s =>
      match S.update w.collection w.id r s with
      | .ok _ s => .ok () s
      | .error e s => .error e s
  | none => .ok () (exec (S.delete w.collection w.id) s)

def applyAll (writes : List CrossShardWrite) : EStateM Error σ Unit :=
  forEach (applyWrite S) writes

/-- `commit_coordinated`. What an earlier attempt left in the journal is applied first. -/
def commit (writes : List CrossShardWrite) : CoordinatorM σ Unit := do
  if writes.isEmpty then return ()
  else
    let pending ← attempt (Journal.load (← get).journal)
    modify fun c => { c with journal := some (Journal.bytes (pending ++ writes)) }
    onShards (applyAll S (pending ++ writes))
    modify fun c => { c with journal := none }

/-- `recover_coordinated`, which opening calls. -/
def recover : CoordinatorM σ ℕ := do
  let pending ← attempt (Journal.load (← get).journal)
  if pending.isEmpty then return 0
  else
    onShards (applyAll S pending)
    modify fun c => { c with journal := none }
    return pending.length

section Cases

variable {S} {collection : String} {id : RecordId} {rec : Record} {s s' s'' : σ} {u : Unit}
  {b : Bool} {e f : Error}

theorem applyWrite_fresh (h : S.insert collection id rec s = .ok u s') :
    applyWrite S ⟨collection, id, some rec⟩ s = .ok () s' := by
  unfold applyWrite
  dsimp only
  rw [h]

theorem applyWrite_taken (h : S.insert collection id rec s = .error e s')
    (hu : S.update collection id rec s' = .ok b s'') :
    applyWrite S ⟨collection, id, some rec⟩ s = .ok () s'' := by
  unfold applyWrite
  dsimp only
  rw [h]
  dsimp only
  rw [hu]

theorem applyWrite_refused (h : S.insert collection id rec s = .error e s')
    (hu : S.update collection id rec s' = .error f s'') :
    applyWrite S ⟨collection, id, some rec⟩ s = .error f s'' := by
  unfold applyWrite
  dsimp only
  rw [h]
  dsimp only
  rw [hu]

end Cases

/-! ## Crashes -/

/-- Where a commit is when the process dies. -/
inductive Point where
  /-- This many bytes of the new journal are in the file. -/
  | writing (n : ℕ)
  /-- The journal is durable, and this many of its writes have been applied. -/
  | applying (k : ℕ)

/-- What a crash leaves of a commit. -/
def crashed (writes : List CrossShardWrite) (p : Point) (c : Coordinator σ) : Coordinator σ :=
  if writes.isEmpty then c
  else match Journal.load c.journal with
    | .error _ => c
    | .ok pending => match p with
      | .writing n => { c with journal := some ((Journal.bytes (pending ++ writes)).take n) }
      | .applying k => ⟨exec (applyAll S ((pending ++ writes).take k)) c.store,
          some (Journal.bytes (pending ++ writes))⟩

/-- What a crash leaves of a recovery that had applied this many writes. -/
def crashedRecovery (k : ℕ) (c : Coordinator σ) : Coordinator σ :=
  match Journal.load c.journal with
  | .error _ => c
  | .ok pending => { c with store := exec (applyAll S (pending.take k)) c.store }

/-- What the shards are asked to take when the write is applied. -/
def WriteAdmitted (A : Logical → σ → Prop) (w : CrossShardWrite) (s : σ) : Prop :=
  match w.record with
  | some r => A (.op (.insert w.collection w.id r)) s ∧
    match S.insert w.collection w.id r s with
    | .ok _ _ => True
    | .error _ s' => A (.op (.update w.collection w.id r)) s'
  | none => A (.op (.delete w.collection w.id)) s

/-- Every write is admitted where it is applied. -/
def Applicable (A : Logical → σ → Prop) : List CrossShardWrite → σ → Prop
  | [], _ => True
  | w :: ws, s => WriteAdmitted S A w s ∧
    match applyWrite S w s with
    | .ok _ s' => Applicable A ws s'
    | .error _ _ => True

instance (A : Logical → σ → Prop) [∀ c s, Decidable (A c s)] (w : CrossShardWrite) (s : σ) :
    Decidable (WriteAdmitted S A w s) := by
  unfold WriteAdmitted
  split
  · refine @instDecidableAnd _ _ _ ?_
    split <;> infer_instance
  · infer_instance

def decideApplicable (A : Logical → σ → Prop) [∀ c s, Decidable (A c s)] :
    (ws : List CrossShardWrite) → (s : σ) → Decidable (Applicable S A ws s)
  | [], _ => isTrue trivial
  | w :: ws, s => by
    unfold Applicable
    refine @instDecidableAnd _ _ _ ?_
    split
    · exact decideApplicable A ws _
    · infer_instance

instance (A : Logical → σ → Prop) [∀ c s, Decidable (A c s)] (ws : List CrossShardWrite) (s : σ) :
    Decidable (Applicable S A ws s) := decideApplicable S A ws s

/-- It is so of the writes in the journal, where it can be read. -/
def OnPending (P : List CrossShardWrite → Prop) (c : Coordinator σ) : Prop :=
  match Journal.load c.journal with
  | .ok pending => P pending
  | .error _ => True

instance (P : List CrossShardWrite → Prop) [DecidablePred P] (c : Coordinator σ) :
    Decidable (c.OnPending P) := by
  unfold OnPending
  split <;> infer_instance

theorem OnPending.get {P : List CrossShardWrite → Prop} {c : Coordinator σ}
    (h : c.OnPending P) {pending : List CrossShardWrite}
    (hc : Journal.load c.journal = .ok pending) : P pending := by
  unfold OnPending at h
  rwa [hc] at h

end Programs

end Coordinator

/-! ## The reference for it -/

/-- A reference store and what has been promised: no writes can be read from a journal that
was cut in its first bytes. -/
structure Promised where
  store : ReferenceStore
  pending : Option (List CrossShardWrite)

namespace Promised
open Coordinator

abbrev PromisedM (α : Type) := EStateM Error Promised α

def onStore {α : Type} (x : ReferenceStore.ReferenceM α) : PromisedM α := fun t =>
  match x t.store with
  | .ok a s => .ok a { t with store := s }
  | .error e s => .error e { t with store := s }

def promised (t : Promised) : Except Error (List CrossShardWrite) :=
  match t.pending with
  | some ws => .ok ws
  | none => .error Journal.unreadableHeader

def commit (writes : List CrossShardWrite) : PromisedM Unit := do
  if writes.isEmpty then return ()
  else
    let pending ← attempt (← get).promised
    modify fun t => { t with pending := some (pending ++ writes) }
    onStore (applyAll ReferenceStore.store (pending ++ writes))
    modify fun t => { t with pending := some [] }

def recover : PromisedM ℕ := do
  let pending ← attempt (← get).promised
  if pending.isEmpty then return 0
  else
    onStore (applyAll ReferenceStore.store pending)
    modify fun t => { t with pending := some [] }
    return pending.length

/-- What can be read from the first bytes of a journal. -/
def readable (ws : List CrossShardWrite) (n : ℕ) : Option (List CrossShardWrite) :=
  if n = 0 then some [] else if n < 4 then none else some (Journal.whole (n - 4) ws)

def crashed (writes : List CrossShardWrite) (p : Point) (t : Promised) : Promised :=
  if writes.isEmpty then t
  else match t.pending with
    | none => t
    | some pending => match p with
      | .writing n => { t with pending := readable (pending ++ writes) n }
      | .applying k => ⟨exec (applyAll ReferenceStore.store ((pending ++ writes).take k)) t.store,
          some (pending ++ writes)⟩

def crashedRecovery (k : ℕ) (t : Promised) : Promised :=
  match t.pending with
  | none => t
  | some pending =>
    { t with store := exec (applyAll ReferenceStore.store (pending.take k)) t.store }

end Promised

/-! ## Runs -/

/-- What a process does with shards and a journal, and where it dies. -/
inductive Coordinated (υ : Type) where
  | call (c : Call υ)
  | commit (writes : List CrossShardWrite)
  | recover
  | crash (writes : List CrossShardWrite) (p : Coordinator.Point)
  | crashRecovery (k : ℕ)

namespace Coordinated
open Coordinator

/-- The calls are those of any one shard or all of them. -/
def reply (M : Maintained σ υ) (x : Coordinated υ) (c : Coordinator σ) : Reply × Coordinator σ :=
  match x with
  | call x => ((x.reply M c.store).1, { c with store := (x.reply M c.store).2 })
  | commit ws => (.outcome (.wrap (result (Coordinator.commit M.toLogicalStore ws) c) fun _ => .unit),
      exec (Coordinator.commit M.toLogicalStore ws) c)
  | recover => (.outcome (.wrap (result (Coordinator.recover M.toLogicalStore) c) .count),
      exec (Coordinator.recover M.toLogicalStore) c)
  | crash ws p => (.done, crashed M.toLogicalStore ws p c)
  | crashRecovery k => (.done, crashedRecovery M.toLogicalStore k c)

def promise (x : Coordinated υ) (t : Promised) : Reply × Promised :=
  match x with
  | call x => ((x.reply ReferenceStore.store.idle t.store).1,
      { t with store := (x.reply ReferenceStore.store.idle t.store).2 })
  | commit ws => (.outcome (.wrap (result (Promised.commit ws) t) fun _ => .unit),
      exec (Promised.commit ws) t)
  | recover => (.outcome (.wrap (result Promised.recover t) .count), exec Promised.recover t)
  | crash ws p => (.done, t.crashed ws p)
  | crashRecovery k => (.done, t.crashedRecovery k)

/-- The writes can be read back, and are admitted on top of those still in the journal. -/
def Admitted (M : Maintained σ υ) (A : Logical → σ → Prop) (B : υ → σ → Prop)
    (x : Coordinated υ) (c : Coordinator σ) : Prop :=
  match x with
  | call x => x.Admitted A B c.store
  | commit ws => (∀ w ∈ ws, w.Legible) ∧ c.OnPending fun pending =>
      Applicable M.toLogicalStore A (pending ++ ws) c.store
  | recover => c.OnPending fun pending => Applicable M.toLogicalStore A pending c.store
  | crash ws (.writing _) => ∀ w ∈ ws, w.Legible
  | crash ws (.applying k) => (∀ w ∈ ws, w.Legible) ∧ c.OnPending fun pending =>
      Applicable M.toLogicalStore A ((pending ++ ws).take k) c.store
  | crashRecovery k => c.OnPending fun pending =>
      Applicable M.toLogicalStore A (pending.take k) c.store

instance (M : Maintained σ υ) (A : Logical → σ → Prop) (B : υ → σ → Prop)
    [∀ c s, Decidable (A c s)] [∀ u s, Decidable (B u s)] (x : Coordinated υ)
    (c : Coordinator σ) : Decidable (x.Admitted M A B c) := by
  unfold Admitted
  split <;> infer_instance

end Coordinated

/-! ## The journal keeps the promises -/

section Refinement

/-- The journal reads as what has been promised, and what has been promised can be written
again. -/
structure Promises (I : σ → ReferenceStore → Prop) (c : Coordinator σ) (t : Promised) :
    Prop where
  store : I c.store t.store
  journal : Journal.load c.journal = t.promised
  legible : ∀ ws ∈ t.pending, ∀ w ∈ ws, w.Legible

open Coordinator

variable {S : LogicalStore σ} {I : σ → ReferenceStore → Prop} {A : Logical → σ → Prop} {s : σ}
  {r : ReferenceStore}

theorem eqv_failed {o : OpOutcome} {k : ErrKind} (ho : ∀ j, o ≠ .failed j) :
    ¬ o.Eqv (.failed k) ∧ ¬ OpOutcome.Eqv (.failed k) o := by
  cases o with
  | failed j => exact absurd rfl (ho j)
  | fetched rec =>
    cases rec with
    | none => exact ⟨id, id⟩
    | some rec => exact ⟨id, id⟩
  | unit => exact ⟨id, id⟩
  | existed b => exact ⟨id, id⟩
  | rows rows => exact ⟨id, id⟩
  | count n => exact ⟨id, id⟩

/-- Answers of one kind are both values or both errors. -/
theorem matched_of_outcome {α : Type} {x : EStateM Error σ α}
    {y : ReferenceStore.ReferenceM α} {f : α → OpOutcome} (hf : ∀ a k, f a ≠ .failed k)
    (h : (OpOutcome.wrap (result x s) f).Eqv (.wrap (result y r) f) ∧
      I (exec x s) (exec y r)) :
    Matched (fun _ _ => True) (fun e f => ErrKind.of e = ErrKind.of f) I x s y r := by
  obtain ⟨houtcome, hstate⟩ := h
  unfold result at houtcome
  unfold exec at hstate
  cases hx : x s with
  | ok a s' =>
    cases hy : y r with
    | ok b r' =>
      rw [hx, hy] at hstate
      exact matched_of_ok hx hy trivial hstate
    | error e' r' =>
      rw [hx, hy] at houtcome
      exact absurd houtcome (eqv_failed (hf a)).1
  | error e s' =>
    cases hy : y r with
    | ok b r' =>
      rw [hx, hy] at houtcome
      exact absurd houtcome (eqv_failed (hf b)).2
    | error e' r' =>
      rw [hx, hy] at houtcome hstate
      exact matched_of_error hx hy houtcome hstate

theorem Simulates.applyWrite (hsim : Simulates S ReferenceStore.store I A)
    (w : CrossShardWrite) (h : I s r) (hw : WriteAdmitted S A w s) :
    Alike I (applyWrite S w) s (applyWrite ReferenceStore.store w) r := by
  obtain ⟨collection, id, record⟩ := w
  cases record with
  | none => exact matched_of_ok rfl rfl rfl (hsim (.op (.delete collection id)) s r h hw).2
  | some rec =>
    have hinsert := matched_of_outcome (f := fun _ => .unit) (fun _ _ h => by cases h)
      (hsim (.op (.insert collection id rec)) s r h hw.1)
    rcases hinsert.runs with ⟨_, s', _, r', hs, hr, -, hi⟩ | ⟨e, s', f, r', hs, hr, -, hi⟩
    · exact matched_of_ok (applyWrite_fresh hs) (applyWrite_fresh hr) rfl hi
    · have hadmitted := hw.2
      dsimp only at hadmitted
      rw [hs] at hadmitted
      have hupdate := matched_of_outcome (f := .existed) (fun _ _ h => by cases h)
        (hsim (.op (.update collection id rec)) s' r' hi hadmitted)
      rcases hupdate.runs with ⟨_, s'', _, r'', hs', hr', -, hi'⟩ | ⟨e', s'', f', r'', hs', hr',
        hkind, hi'⟩
      · exact matched_of_ok (applyWrite_taken hs hs') (applyWrite_taken hr hr') rfl hi'
      · exact matched_of_error (applyWrite_refused hs hs') (applyWrite_refused hr hr') hkind hi'

theorem Simulates.applyAll (hsim : Simulates S ReferenceStore.store I A)
    {ws : List CrossShardWrite} (h : I s r) (hws : Applicable S A ws s) :
    Alike I (applyAll S ws) s (applyAll ReferenceStore.store ws) r := by
  induction ws generalizing s r with
  | nil => exact matched_of_ok rfl rfl rfl h
  | cons w ws ih =>
    refine (hsim.applyWrite w h hws.1).bind fun _ s' _ r' hs _ hi => ih hi ?_
    have hrest := hws.2
    rw [hs] at hrest
    exact hrest

theorem Promises.onShards {α : Type} {x : EStateM Error σ α} {y : ReferenceStore.ReferenceM α}
    {c : Coordinator σ} {t : Promised} (h : Promises I c t) (hx : Alike I x c.store y t.store) :
    Alike (Promises I) (onShards x) c (Promised.onStore y) t := by
  rcases hx.runs with ⟨a, s', b, r', hs, hr, hv, hi⟩ | ⟨e, s', f, r', hs, hr, hkind, hi⟩
  · refine matched_of_ok (u := { c with store := s' }) (v := { t with store := r' }) ?_ ?_ hv
      ⟨hi, h.journal, h.legible⟩
    · rw [Coordinator.onShards, hs]
    · rw [Promised.onStore, hr]
  · refine matched_of_error (u := { c with store := s' }) (v := { t with store := r' }) ?_ ?_
      hkind ⟨hi, h.journal, h.legible⟩
    · rw [Coordinator.onShards, hs]
    · rw [Promised.onStore, hr]

variable {c : Coordinator σ} {t : Promised} {pending writes : List CrossShardWrite}

/-- The journal can be read, and holds what has been promised, or it cannot. -/
theorem Promises.cases (h : Promises I c t) :
    (∃ pending, t.pending = some pending ∧ t.promised = .ok pending ∧
      Journal.load c.journal = .ok pending ∧ ∀ w ∈ pending, w.Legible) ∨
    t.pending = none ∧ t.promised = .error Journal.unreadableHeader ∧
      Journal.load c.journal = .error Journal.unreadableHeader := by
  have hload := h.journal
  unfold Promised.promised at hload ⊢
  cases hp : t.pending with
  | some pending =>
    rw [hp] at hload
    exact .inl ⟨pending, rfl, rfl, hload, h.legible pending hp⟩
  | none =>
    rw [hp] at hload
    exact .inr ⟨rfl, rfl, hload⟩

/-- The journal is written anew. -/
theorem Promises.written (h : Promises I c t) (hw : ∀ w ∈ writes, w.Legible) :
    Promises I { c with journal := some (Journal.bytes writes) }
      { t with pending := some writes } :=
  ⟨h.store, Journal.load_bytes hw, fun ws hws => by
    obtain rfl := Option.some.inj hws
    exact hw⟩

theorem Promises.run (h : Promises I c t) (hi : I s r) :
    Promises I { c with store := s } { t with store := r } := ⟨hi, h.journal, h.legible⟩

/-- The journal is removed. -/
theorem Promises.removed (h : Promises I c t) :
    Promises I { c with journal := none } { t with pending := some [] } :=
  ⟨h.store, rfl, fun ws hws => by
    obtain rfl := Option.some.inj hws
    exact fun _ hw => by cases hw⟩

theorem legible_append (hp : ∀ w ∈ pending, w.Legible) (hw : ∀ w ∈ writes, w.Legible) :
    ∀ w ∈ pending ++ writes, w.Legible := fun w hmem =>
  (List.mem_append.mp hmem).elim (hp w) (hw w)

theorem commit_kept (hsim : Simulates S ReferenceStore.store I A) (h : Promises I c t)
    (hw : ∀ w ∈ writes, w.Legible)
    (hws : c.OnPending fun pending => Applicable S A (pending ++ writes) c.store) :
    Alike (Promises I) (Coordinator.commit S writes) c (Promised.commit writes) t := by
  unfold Coordinator.commit Promised.commit
  split_ifs
  · exact matched_of_ok rfl rfl rfl h
  · rcases h.cases with ⟨pending, -, ht, hc, hp⟩ | ⟨-, ht, hc⟩
    · refine .get ?_
      rw [ht, hc]
      refine .attempt (.modify (Matched.bind ((h.written (legible_append hp hw)).onShards
        (hsim.applyAll h.store (hws.get hc))) fun _ _ _ _ _ _ hi => ?_))
      exact matched_of_ok rfl rfl rfl hi.removed
    · refine .get ?_
      rw [ht, hc]
      exact matched_of_error rfl rfl rfl h

theorem recover_kept (hsim : Simulates S ReferenceStore.store I A) (h : Promises I c t)
    (hws : c.OnPending fun pending => Applicable S A pending c.store) :
    Alike (Promises I) (Coordinator.recover S) c Promised.recover t := by
  unfold Coordinator.recover Promised.recover
  refine .get ?_
  rcases h.cases with ⟨pending, -, ht, hc, -⟩ | ⟨-, ht, hc⟩
  · rw [ht, hc]
    refine .attempt ?_
    split_ifs
    · exact matched_of_ok rfl rfl rfl h
    · refine Matched.bind (h.onShards (hsim.applyAll h.store (hws.get hc)))
        fun _ _ _ _ _ _ hi => .modify ?_
      exact matched_of_ok rfl rfl rfl hi.removed
  · rw [ht, hc]
    exact matched_of_error rfl rfl rfl h

/-- A journal that is being written is read up to where it was cut. -/
theorem writing_kept (h : Promises I c t) (hw : ∀ w ∈ writes, w.Legible) (n : ℕ) :
    Promises I (crashed S writes (.writing n) c) (Promised.crashed writes (.writing n) t) := by
  unfold crashed Promised.crashed
  split_ifs
  · exact h
  rcases h.cases with ⟨pending, ht, -, hc, hp⟩ | ⟨ht, -, hc⟩
  · rw [ht, hc]
    have hall := legible_append hp hw
    refine ⟨h.store, ?_, fun ws hws w hmem => ?_⟩
    · dsimp only
      rw [Journal.load_cut_legible hall, Promised.promised, Promised.readable]
      split_ifs
      · rfl
      · rfl
      · rfl
    · dsimp only at hws
      unfold Promised.readable at hws
      split_ifs at hws
      · obtain rfl := Option.some.inj hws
        cases hmem
      · cases hws
      · obtain rfl := Option.some.inj hws
        exact hall w ((Journal.whole_initial _ _).subset hmem)
  · rw [ht, hc]
    exact h

theorem applying_kept (hsim : Simulates S ReferenceStore.store I A) (h : Promises I c t)
    (hw : ∀ w ∈ writes, w.Legible) {k : ℕ}
    (hws : c.OnPending fun pending => Applicable S A ((pending ++ writes).take k) c.store) :
    Promises I (crashed S writes (.applying k) c) (Promised.crashed writes (.applying k) t) := by
  unfold crashed Promised.crashed
  split_ifs
  · exact h
  rcases h.cases with ⟨pending, ht, -, hc, hp⟩ | ⟨ht, -, hc⟩
  · rw [ht, hc]
    exact (h.written (legible_append hp hw)).run (hsim.applyAll h.store (hws.get hc)).exec
  · rw [ht, hc]
    exact h

theorem crashedRecovery_kept (hsim : Simulates S ReferenceStore.store I A) (h : Promises I c t)
    {k : ℕ} (hws : c.OnPending fun pending => Applicable S A (pending.take k) c.store) :
    Promises I (crashedRecovery S k c) (t.crashedRecovery k) := by
  unfold crashedRecovery Promised.crashedRecovery
  rcases h.cases with ⟨pending, ht, -, hc, -⟩ | ⟨ht, -, hc⟩
  · have hrun := h.run (hsim.applyAll h.store (hws.get hc)).exec
    rw [ht] at hrun
    rw [ht, hc]
    exact hrun
  · rw [ht, hc]
    exact h

end Refinement

/-! ## A run of transactions -/

section Runs

variable {M : Maintained σ υ} {I : σ → ReferenceStore → Prop} {A : Logical → σ → Prop}
  {B : υ → σ → Prop}

theorem coordinated_step (hsim : Simulates M.toLogicalStore ReferenceStore.store I A)
    (hupkeep : ∀ u s r, I s r → B u s → I (M.upkeep u s) r) (x : Coordinated υ)
    (c : Coordinator σ) (t : Promised) (h : Promises I c t) (hx : x.Admitted M A B c) :
    (x.reply M c).1.Eqv (x.promise t).1 ∧ Promises I (x.reply M c).2 (x.promise t).2 := by
  cases x with
  | call x =>
    have hcall : (x.reply M c.store).1.Eqv (x.reply ReferenceStore.store.idle t.store).1 ∧
        I (x.reply M c.store).2 (x.reply ReferenceStore.store.idle t.store).2 := by
      cases x with
      | logical x => exact hsim x c.store t.store h.store hx
      | upkeep u => exact ⟨trivial, hupkeep u c.store t.store h.store hx⟩
    exact ⟨hcall.1, h.run hcall.2⟩
  | commit ws => exact (commit_kept hsim h hx.1 hx.2).outcome _ fun _ => trivial
  | recover => exact (recover_kept hsim h hx).outcome _ fun _ => rfl
  | crash ws p =>
    cases p with
    | writing n => exact ⟨trivial, writing_kept (S := M.toLogicalStore) h hx n⟩
    | applying k => exact ⟨trivial, applying_kept hsim h hx.1 hx.2⟩
  | crashRecovery k => exact ⟨trivial, crashedRecovery_kept hsim h hx⟩

/-- However the process dies and comes back between and within transactions, the journal
stands for what was promised and all that is asked is answered as the reference answers. -/
theorem coordinated_run (hsim : Simulates M.toLogicalStore ReferenceStore.store I A)
    (hupkeep : ∀ u s r, I s r → B u s → I (M.upkeep u s) r) {c : Coordinator σ} {t : Promised}
    (h : Promises I c t) (xs : List (Coordinated υ))
    (hxs : Guarded (advance (Coordinated.reply M)) (Coordinated.Admitted M A B) c xs) :
    List.Forall₂ Reply.Eqv (answers (Coordinated.reply M) c xs) (answers Coordinated.promise t xs) ∧
      Promises I (run (advance (Coordinated.reply M)) c xs)
        (run (advance Coordinated.promise) t xs) :=
  answers_related (fun x c t h hx => coordinated_step hsim hupkeep x c t h hx) h xs hxs

end Runs

/-! ## Writes done again -/

section Again

open Coordinator ReferenceStore

variable {r : ReferenceStore} {collection : String} {id : RecordId} {rec : Record}
  {t : ReferenceStore.Collection}

/-- The collections there are and their schemas. -/
def schemas (r : ReferenceStore) (name : String) : Option Schema :=
  (r.collections.get name).map (·.schema)

def find (r : ReferenceStore) (k : String × RecordId) : Option Record :=
  (r.collections.get k.1).bind (·.records.get k.2)

theorem applyWrite_put (hr : r.collections.get collection = some t)
    (hv : t.schema.validateRecord (normalizeForStorage rec) = .ok ()) :
    applyWrite store ⟨collection, id, some rec⟩ r = .ok () (r.put collection
      { t with records := t.records.insert id (normalizeForStorage rec) }) := by
  cases hg : t.records.get id with
  | none =>
    have hinsert : ReferenceStore.insert collection id rec r = .ok () (r.put collection
        { t with records := t.records.insert id (normalizeForStorage rec) }) := run_ok (by
      rw [Returns, post_insert, hr]
      dsimp only
      rw [hv, hg]
      exact ⟨rfl, rfl⟩)
    exact applyWrite_fresh (S := store) hinsert
  | some row =>
    have hinsert : ReferenceStore.insert collection id rec r = .error (.recordExists id) r :=
      run_error (by
        rw [post_insert, hr]
        dsimp only
        rw [hv, hg]
        exact ⟨rfl, rfl⟩)
    have hupdate : ReferenceStore.update collection id rec r = .ok true (r.put collection
        { t with records := t.records.insert id (normalizeForStorage rec) }) := run_ok (by
      rw [Returns, post_update, hr]
      dsimp only
      rw [hv, hg]
      exact ⟨rfl, rfl⟩)
    exact applyWrite_taken (S := store) hinsert hupdate

/-- Both ways to put a record end in one error. -/
theorem applyWrite_error {e : Error}
    (hinsert : Post (ReferenceStore.insert collection id rec) r (fun _ _ => False)
      fun f s => f = e ∧ s = r)
    (hupdate : Post (ReferenceStore.update collection id rec) r (fun _ _ => False)
      fun f s => f = e ∧ s = r) :
    applyWrite store ⟨collection, id, some rec⟩ r = .error e r :=
  applyWrite_refused (S := store) (run_error hinsert) (run_error hupdate)

theorem applyWrite_absent (hr : r.collections.get collection = none) :
    applyWrite store ⟨collection, id, some rec⟩ r = .error (.noSuchCollection collection) r := by
  refine applyWrite_error ?_ ?_
  · rw [post_insert, hr]
    exact ⟨rfl, rfl⟩
  · rw [post_update, hr]
    exact ⟨rfl, rfl⟩

theorem applyWrite_invalid {e : SchemaError} (hr : r.collections.get collection = some t)
    (hv : t.schema.validateRecord (normalizeForStorage rec) = .error e) :
    applyWrite store ⟨collection, id, some rec⟩ r = .error (.schema e) r := by
  refine applyWrite_error ?_ ?_
  · rw [post_insert, hr]
    dsimp only
    rw [hv]
    exact ⟨rfl, rfl⟩
  · rw [post_update, hr]
    dsimp only
    rw [hv]
    exact ⟨rfl, rfl⟩

theorem applyWrite_delete (hr : r.collections.get collection = some t) :
    applyWrite store ⟨collection, id, none⟩ r =
      .ok () (r.put collection { t with records := t.records.erase id }) := by
  have hdelete : ReferenceStore.delete collection id r = .ok (t.records.get id).isSome
      (r.put collection { t with records := t.records.erase id }) := run_ok (by
    rw [Returns, post_delete, hr]
    exact ⟨rfl, rfl⟩)
  exact congrArg (EStateM.Result.ok ()) (exec_of_ok hdelete)

theorem applyWrite_nothing (hr : r.collections.get collection = none) :
    applyWrite store ⟨collection, id, none⟩ r = .ok () r := by
  have hdelete : ReferenceStore.delete collection id r = .error (.noSuchCollection collection) r :=
    run_error (by
      rw [post_delete, hr]
      exact ⟨rfl, rfl⟩)
  exact congrArg (EStateM.Result.ok ()) (exec_of_error hdelete)

/-- A write leaves the store as it was, or changes one record. -/
theorem applyWrite_exec (w : CrossShardWrite) (r : ReferenceStore) :
    exec (applyWrite store w) r = r ∨ ∃ t records, r.collections.get w.collection = some t ∧
      exec (applyWrite store w) r = r.put w.collection { t with records := records } ∧
      ∀ x, x ≠ w.id → records.get x = t.records.get x := by
  obtain ⟨collection, id, record⟩ := w
  cases record with
  | none =>
    cases hr : r.collections.get collection with
    | none => exact .inl (exec_of_ok (applyWrite_nothing hr))
    | some t =>
      refine .inr ⟨t, _, rfl, exec_of_ok (applyWrite_delete hr), fun x hx => ?_⟩
      rw [OrdMap.get_erase, if_neg hx]
  | some rec =>
    cases hr : r.collections.get collection with
    | none => exact .inl (exec_of_error (applyWrite_absent hr))
    | some t =>
      cases hv : t.schema.validateRecord (normalizeForStorage rec) with
      | error e => exact .inl (exec_of_error (applyWrite_invalid hr hv))
      | ok u =>
        exact .inr ⟨t, _, rfl, exec_of_ok (applyWrite_put hr hv), fun x hx =>
          OrdMap.get_insert_ne _ _ hx⟩

theorem schemas_put (hr : r.collections.get collection = some t) (records : OrdMap RecordId Record) :
    schemas (r.put collection { t with records := records }) = schemas r := by
  funext name
  unfold schemas ReferenceStore.put
  dsimp only
  rw [OrdMap.get_insert]
  split_ifs with hn
  · rw [hn, hr]
    rfl
  · rfl

theorem find_put (r : ReferenceStore) (t : ReferenceStore.Collection)
    (k : String × RecordId) : find (r.put collection t) k =
      if k.1 = collection then t.records.get k.2 else find r k := by
  unfold find ReferenceStore.put
  dsimp only
  rw [OrdMap.get_insert]
  split_ifs
  · rfl
  · rfl

theorem ext_find {r s : ReferenceStore} (hschemas : schemas r = schemas s)
    (hfind : ∀ k, find r k = find s k) : r = s := by
  refine ext_collections fun name => ?_
  have hname := congrFun hschemas name
  have hrecords := fun id => hfind (name, id)
  unfold schemas at hname
  unfold find at hrecords
  dsimp only at hrecords
  cases hr : r.collections.get name with
  | none =>
    rw [hr] at hname
    exact (Option.map_eq_none_iff.mp hname.symm).symm
  | some t =>
    rw [hr] at hname hrecords
    obtain ⟨u, hu, hsame⟩ := Option.map_eq_some_iff.mp hname.symm
    rw [hu] at hrecords ⊢
    have hmap : t.records = u.records := OrdMap.ext_get hrecords
    cases t
    cases u
    dsimp only at hsame hmap
    rw [hsame, hmap]

theorem schemas_some {r s : ReferenceStore} (h : schemas r = schemas s)
    (hr : r.collections.get collection = some t) :
    ∃ u : ReferenceStore.Collection, s.collections.get collection = some u ∧
      u.schema = t.schema := by
  have hname := congrFun h collection
  unfold schemas at hname
  rw [hr] at hname
  exact Option.map_eq_some_iff.mp hname.symm

theorem keyed_writes : Keyed (applyWrite store) (fun w => (w.collection, w.id)) schemas find where
  ext _ _ := ext_find
  framed w r := by
    rcases applyWrite_exec w r with h | ⟨t, records, hr, h, -⟩
    · rw [h]
    · rw [h, schemas_put hr]
  elsewhere w r k hk := by
    rcases applyWrite_exec w r with h | ⟨t, records, hr, h, hsame⟩
    · rw [h]
    · rw [h, find_put]
      split_ifs with hc
      · have hid : k.2 ≠ w.id := fun hid => hk (Prod.ext hc hid)
        rw [hsame _ hid, find, hc, hr]
        rfl
      · rfl
  again w r r' s hschemas hw := by
    obtain ⟨collection, id, record⟩ := w
    cases record with
    | none =>
      have hgone : ∀ q : ReferenceStore, ∃ q', applyWrite store ⟨collection, id, none⟩ q = .ok () q' ∧
          find q' (collection, id) = none := by
        intro q
        cases hq : q.collections.get collection with
        | none =>
          refine ⟨q, applyWrite_nothing hq, ?_⟩
          rw [find, hq]
          rfl
        | some t =>
          refine ⟨_, applyWrite_delete hq, ?_⟩
          rw [find_put, if_pos rfl]
          exact OrdMap.get_erase_self _ _
      obtain ⟨q, hq, hfind⟩ := hgone r
      obtain ⟨s', hs, hfind'⟩ := hgone s
      rw [hw] at hq
      injection hq with _ hq
      exact ⟨s', hs, hfind'.trans (hq ▸ hfind).symm⟩
    | some rec =>
      cases hr : r.collections.get collection with
      | none =>
        rw [applyWrite_absent hr] at hw
        cases hw
      | some t =>
        cases hv : t.schema.validateRecord (normalizeForStorage rec) with
        | error e =>
          rw [applyWrite_invalid hr hv] at hw
          cases hw
        | ok u =>
          rw [applyWrite_put hr hv] at hw
          injection hw with _ hw
          obtain ⟨t', hs, hsame⟩ := schemas_some hschemas hr
          refine ⟨_, applyWrite_put hs (hsame ▸ hv), ?_⟩
          rw [← hw, find_put, find_put, if_pos rfl, if_pos rfl, OrdMap.get_insert_self,
            OrdMap.get_insert_self]

/-! ## Transactions cut short -/

/-- The writes that a crash at this point leaves promised. -/
def Coordinator.Point.survivors (ws : List CrossShardWrite) : Point → List CrossShardWrite
  | .writing n => if n < 4 then [] else Journal.whole (n - 4) ws
  | .applying _ => ws

/-- The journal was not cut in the four bytes that say what it is. -/
def Coordinator.Point.Clear : Point → Prop
  | .writing n => n = 0 ∨ 4 ≤ n
  | .applying _ => True

instance (p : Point) : Decidable p.Clear := by
  unfold Point.Clear
  split <;> infer_instance

theorem applyAll_prefix {vs ws : List CrossShardWrite} (h : vs <+: ws) {r' : ReferenceStore}
    (hws : applyAll store ws r = .ok () r') : ∃ q, applyAll store vs r = .ok () q := by
  obtain ⟨rest, rfl⟩ := h
  unfold applyAll at hws ⊢
  rw [Framing.forEach_append, bind_apply] at hws
  cases hvs : forEach (applyWrite store) vs r with
  | ok u q => exact ⟨q, rfl⟩
  | error e q =>
    rw [hvs] at hws
    cases hws

theorem exec_commit {ws : List CrossShardWrite} {r' : ReferenceStore}
    (h : applyAll store ws r = .ok () r') :
    exec (Promised.commit ws) ⟨r, some []⟩ = ⟨r', some []⟩ := by
  cases ws with
  | nil =>
    injection h with _ h
    rw [← h]
    rfl
  | cons w ws =>
    have hrun : Promised.commit (w :: ws) ⟨r, some []⟩ = .ok ⟨⟩ ⟨r', some []⟩ := by
      change (Promised.onStore (applyAll store (w :: ws)) >>= fun _ => modify _)
        (⟨r, some (w :: ws)⟩ : Promised) = _
      rw [bind_apply, Promised.onStore, h]
      rfl
    exact exec_of_ok hrun

theorem exec_recover {ws : List CrossShardWrite} {r' : ReferenceStore}
    (h : applyAll store ws r = .ok () r') :
    exec Promised.recover ⟨r, some ws⟩ = ⟨r', some []⟩ := by
  cases ws with
  | nil =>
    injection h with _ h
    rw [← h]
    rfl
  | cons w ws =>
    have hrun : Promised.recover ⟨r, some (w :: ws)⟩ = .ok (ws.length + 1) ⟨r', some []⟩ := by
      change (Promised.onStore (applyAll store (w :: ws)) >>= fun _ => modify _ >>= fun _ => pure _)
        (⟨r, some (w :: ws)⟩ : Promised) = _
      rw [bind_apply, Promised.onStore, h]
      rfl
    exact exec_of_ok hrun

/-- However often recovery is cut short, the last one ends where the writes do. -/
theorem recovery_lands {υ : Type} {ws : List CrossShardWrite} {r' s : ReferenceStore}
    (h : applyAll store ws r = .ok () r')
    (hs : OffKeys (fun w => (w.collection, w.id)) schemas find ws r s) (ks : List ℕ) :
    run (advance (Coordinated.promise (υ := υ))) ⟨s, some ws⟩ (ks.map .crashRecovery ++ [.recover]) =
      ⟨r', some []⟩ := by
  induction ks generalizing s with
  | nil => exact exec_recover (keyed_writes.replay hs h)
  | cons k ks ih =>
    exact ih (keyed_writes.some_of (fun w hw => List.mem_of_mem_take hw) hs)

/-- Once a recovery has ended, a transaction that a crash cut short has been committed with
the writes that its journal held, and that is all of them once anything was applied. -/
theorem crash_lands {υ : Type} {ws : List CrossShardWrite} {r' : ReferenceStore}
    (h : applyAll store ws r = .ok () r') {p : Point} (hp : p.Clear) (ks : List ℕ) :
    run (advance (Coordinated.promise (υ := υ))) ⟨r, some []⟩
        (.crash ws p :: (ks.map .crashRecovery ++ [.recover])) =
      run (advance (Coordinated.promise (υ := υ))) ⟨r, some []⟩ [.commit (p.survivors ws)] := by
  have hsame : ∀ vs : List CrossShardWrite,
      OffKeys (fun w => (w.collection, w.id)) schemas find vs r r := fun _ => ⟨rfl, fun _ _ => rfl⟩
  have hcommit : ∀ vs r', applyAll store vs r = .ok () r' →
      run (advance (Coordinated.promise (υ := υ))) ⟨r, some []⟩ [.commit vs] = ⟨r', some []⟩ :=
    fun _ _ hvs => exec_commit hvs
  rw [run_cons]
  change run _ (Promised.crashed ws p ⟨r, some []⟩) _ = _
  unfold Promised.crashed
  cases ws with
  | nil =>
    have hnone : p.survivors [] = [] := by
      cases p with
      | writing n => exact ite_self _
      | applying k => rfl
    rw [hnone, hcommit [] r rfl]
    exact recovery_lands rfl (hsame []) ks
  | cons w ws =>
    cases p with
    | applying k =>
      rw [Point.survivors, hcommit _ _ h]
      exact recovery_lands h
        (keyed_writes.some_of (fun w hw => List.mem_of_mem_take hw) (hsame _)) ks
    | writing n =>
      rcases hp with rfl | hn
      · exact (recovery_lands rfl (hsame []) ks).trans (hcommit [] r rfl).symm
      · obtain ⟨q, hq⟩ := applyAll_prefix (Journal.whole_initial (w :: ws) (n - 4)) h
        have hreadable : Promised.readable (w :: ws) n =
            some (Journal.whole (n - 4) (w :: ws)) := by
          rw [Promised.readable, if_neg (by omega), if_neg (by omega)]
        have hsurvivors : (Point.writing n).survivors (w :: ws) =
            Journal.whole (n - 4) (w :: ws) := if_neg (by omega)
        rw [hsurvivors, hcommit _ _ hq]
        change run _ (⟨r, Promised.readable (w :: ws) n⟩ : Promised) _ = _
        rw [hreadable]
        exact recovery_lands hq (hsame _) ks

end Again

/-! ## The sharded database -/

section Sharded

open Coordinator

variable {ε : Type}

def coordinated (E : ℕ → Env) (b : Build) (V : Engine.Upkeep ε) :
    Coordinated (ℕ × Tending ε) → Coordinator (Shards (Database (DirectLookup × ε))) →
      Reply × Coordinator (Shards (Database (DirectLookup × ε))) :=
  Coordinated.reply (shardedDatabase E b V)

/-- A directory in which nothing has been done. -/
def emptyCoordinator (n : ℕ) (strict : Bool) (others : ε) :
    Coordinator (Shards (Database (DirectLookup × ε))) :=
  ⟨emptyShards n strict others, none⟩

def CoordinatedAdmitted (E : ℕ → Env) (b : Build) (V : Engine.Upkeep ε) :
    Coordinated (ℕ × Tending ε) → Coordinator (Shards (Database (DirectLookup × ε))) → Prop :=
  Coordinated.Admitted (shardedDatabase E b V) (ShardsAdmitted fun i => DatabaseAdmitted (E i))
    (ShardAllowed fun i => Tending.Allowed (E i))

instance (E : ℕ → Env) (b : Build) (V : Engine.Upkeep ε) (x : Coordinated (ℕ × Tending ε))
    (c : Coordinator (Shards (Database (DirectLookup × ε)))) :
    Decidable (CoordinatedAdmitted E b V x c) := by
  unfold CoordinatedAdmitted
  infer_instance

def Promised.none : Promised := ⟨.new, some []⟩

theorem promises_empty (E : ℕ → Env) (n : ℕ) (strict : Bool) (others : ε) :
    Promises (Split fun i => Backs (E i)) (emptyCoordinator n strict others) .none :=
  ⟨split_empty E n strict others, rfl, fun ws hws => by
    obtain rfl := Option.some.inj hws
    exact fun _ hw => by cases hw⟩

theorem sharded_run (E : ℕ → Env) (b : Build) (V : Engine.Upkeep ε)
    {c : Coordinator (Shards (Database (DirectLookup × ε)))} {t : Promised}
    (h : Promises (Split fun i => Backs (E i)) c t) (xs : List (Coordinated (ℕ × Tending ε)))
    (hxs : Guarded (advance (coordinated E b V)) (CoordinatedAdmitted E b V) c xs) :
    List.Forall₂ Reply.Eqv (answers (coordinated E b V) c xs) (answers Coordinated.promise t xs) ∧
      Promises (Split fun i => Backs (E i)) (run (advance (coordinated E b V)) c xs)
        (run (advance Coordinated.promise) t xs) :=
  coordinated_run (M := shardedDatabase E b V) (B := ShardAllowed fun i => Tending.Allowed (E i))
    (shards_simulate fun i => database_simulates (E i) b V)
    (fun u _ _ hs hu => Split.upkeep (M := fun i => database (E i) b V)
      (I := fun i => Backs (E i)) (fun _ u _ _ hb hu => tending_backs b u hb hu) hs u hu)
    h xs hxs

def opened : List (Coordinated (ℕ × Tending Unit)) :=
  (.createCollection "g" readings :: wrote).map fun c => .call (.logical c)

def moved : List CrossShardWrite :=
  [⟨"g", 2, some (gauge ⟨.u64 7, trivial⟩ "u")⟩, ⟨"g", 3, some ∅⟩, ⟨"g", 0, none⟩,
    ⟨"g", 5, none⟩, ⟨"h", 1, none⟩]

/-- The transaction, cut short on the second shard, recovered in two goes, and one like it. -/
def interrupted : List (Coordinated (ℕ × Tending Unit)) :=
  .crash moved (.applying 2) :: ([1, 0].map .crashRecovery ++ [.recover])

def asked : List (Coordinated (ℕ × Tending Unit)) :=
  wrote.map (fun c => .call (.logical c)) ++ [.commit moved, .recover,
    .crash moved (.writing 60), .recover, .call (.logical (.op (.scan "g")))]

theorem interrupted_admitted :
    Guarded (advance (coordinated (fun _ => .plain) .checked .none))
      (CoordinatedAdmitted (fun _ => .plain) .checked .none) (emptyCoordinator 1 true ())
      (opened ++ interrupted ++ asked) := by
  decide +kernel

theorem moved_taken :
    (run (advance Coordinated.promise) .none opened).pending = some [] ∧
      result (applyAll ReferenceStore.store moved)
        (run (advance Coordinated.promise) .none opened).store = .ok () :=
  ⟨by rfl, by rfl⟩

end Sharded

end Adabt.Testkit
