import Adabt.Engine.IndexRuns
import Adabt.Engine.Uniqueness

/-! # Commits as a whole

A commit checks each buffered write against the state it finds and then applies
them one after another, each against what the ones before it left. The two agree
when no write of the transaction takes a constrained value that another one of
it brings or gives up, and then a commit that fails has changed nothing. -/

set_option autoImplicit false

namespace Adabt.Engine
open Adabt.Core Adabt.Indexing Adabt.Ir Adabt.Library Adabt.Storage Adabt.Storage.Heap

variable {δ : Type} (E : Env) (U : Upkeep δ) {K : Value → Prop}

namespace Database

/-- The store takes the write, whatever the constraints say of it. -/
def Fit (db : Database δ) (w : WriteKey × Write) : Prop :=
  match w.2 with
  | .put rec => Storable E db.store w.1.key.1 w.1.key.2 rec
  | .delete => db.store.stored w.1.key = none ∨ Loggable (.delete w.1.key.1 w.1.key.2)

/-- Everything that is stored is as it was, and so is everything beside the store. -/
structure Untouched (db db' : Database δ) : Prop where
  store : Keeps db.store db'.store
  rest : db' = { db with store := db'.store }

variable {E U}

theorem Untouched.refl {db : Database δ} (hs : db.store.Sound) : Untouched db db :=
  ⟨.refl hs, rfl⟩

/-! ## One write -/

theorem oldRecord_returns {db : Database δ} (h : InStep E K db) {c : String} (id : RecordId)
    (hc : (db.store.formatOf c).isSome) :
    Returns (oldRecord E U c id) db fun _ db' => db' = db := by
  obtain ⟨records, hr, -⟩ := h.reads c hc
  unfold oldRecord
  simp only [Returns, post_bind, post_get]
  split_ifs
  · rw [hr.get h.sound]
    exact rfl
  · exact rfl

theorem update_done {db : Database δ} (h : InStep E K db) {c : String} {id : RecordId} {rec : Record}
    (hst : Storable E db.store c id rec)
    (hu : db.checkUniqueConstraints c (some id) (normalizeForStorage rec) = .ok ()) :
    Returns (update E U c id rec) db fun _ db' => ∃ bytes payload,
      StoredAs E db.store c id rec bytes payload ∧
        Rewrites (c, id) (some payload) db.store db'.store := by
  have hc : (db.store.formatOf c).isSome := by
    obtain ⟨_, _, ⟨_, _, _, hf, -⟩, -⟩ := hst
    rw [hf]
    rfl
  unfold update
  simp only [Returns, post_bind, post_get]
  refine (oldRecord_returns h id hc).mono fun old db1 heq => ?_
  subst heq
  rw [hu, post_attempt_ok, post_onStore]
  refine ((update_returns E h.sound hst).of_post (update_spec E h.sound c id rec)).mono
    fun existed h' hw => ?_
  rw [post_modify, post_pure]
  obtain ⟨d, heq⟩ := reindexUpdate_eq (U := U) c id old (normalizeForStorage rec)
    { db1 with store := h' }
  rw [heq]
  exact hw.2

theorem delete_done {db : Database δ} (h : InStep E K db) {c : String} {id : RecordId}
    (hc : (db.store.formatOf c).isSome)
    (hop : db.store.stored (c, id) = none ∨ Loggable (.delete c id)) :
    Returns (delete E U c id) db fun _ db' => db'.store.stored (c, id) = none ∧
      ∀ k, k ≠ (c, id) → db'.store.stored k = db.store.stored k := by
  unfold delete
  simp only [Returns, post_bind]
  refine (oldRecord_returns h id hc).mono fun old db1 heq => ?_
  subst heq
  rw [post_onStore]
  refine ((delete_returns E h.sound hc hop).of_post (delete_spec E h.sound c id)).mono
    fun existed h' hd => ?_
  rw [post_modify, post_pure]
  obtain ⟨d, heq⟩ := reindexDelete_eq (U := U) c id old { db1 with store := h' }
  rw [heq]
  dsimp only
  rcases hd with ⟨-, -, hw⟩ | ⟨-, hnone, hk⟩
  · rw [hw.stored]
    exact ⟨Function.update_self .., fun k hk => Function.update_of_ne hk ..⟩
  · rw [hk.stored]
    exact ⟨hnone, fun _ _ => rfl⟩

theorem untouched_of_keeps {db : Database δ} {h' : Heap} (hk : Keeps db.store h') :
    Untouched db { db with store := h' } := ⟨hk, rfl⟩

/-- What a write leaves under its key. -/
def Leaves (E : Env) (db : Database δ) (w : WriteKey × Write) (left : Option Bytes) : Prop :=
  match w.2 with
  | .put rec => ∃ bytes payload, StoredAs E db.store w.1.key.1 w.1.key.2 rec bytes payload ∧
      left = some payload
  | .delete => left = none

/-- A write that the store takes and no constraint refuses is carried out. -/
theorem applyWrite_done {db : Database δ} (h : InStep E K db) {w : WriteKey × Write}
    (hfit : Fit E db w) (hc : (db.store.formatOf w.1.key.1).isSome)
    (hu : ∀ rec, w.2 = .put rec → db.checkUniqueConstraints w.1.key.1 (some w.1.key.2)
      (normalizeForStorage rec) = .ok ()) :
    Returns (applyWrite E U w) db fun _ db' => Leaves E db w (db'.store.stored w.1.key) ∧
      ∀ k, k ≠ w.1.key → db'.store.stored k = db.store.stored k := by
  unfold applyWrite Leaves
  unfold Fit at hfit
  cases hw : w.2 with
  | put rec =>
    rw [hw] at hfit
    dsimp only at hfit ⊢
    rw [Returns, post_bind]
    refine (update_done h hfit (hu rec hw)).mono fun _ db' hdone => ?_
    obtain ⟨bytes, payload, hst, hr⟩ := hdone
    rw [post_pure, hr.stored]
    exact ⟨⟨bytes, payload, hst, Function.update_self ..⟩, fun k hk => Function.update_of_ne hk ..⟩
  | delete =>
    rw [hw] at hfit
    dsimp only at hfit ⊢
    rw [Returns, post_bind]
    exact (delete_done h hc hfit).mono fun _ db' hdone => hdone

/-- A write that the store does not take is refused with nothing touched. -/
theorem applyWrite_refuses {db : Database δ} (h : InStep E K db) (hopen : db.store.replaying = false)
    {w : WriteKey × Write} (hfit : ¬ Fit E db w) :
    Post (applyWrite E U w) db (fun _ _ => False) fun _ => Untouched db := by
  have hsame := @Untouched.refl _ db h.sound
  unfold applyWrite
  unfold Fit at hfit
  cases hw : w.2 with
  | put rec =>
    rw [hw] at hfit
    dsimp only at hfit ⊢
    unfold update
    simp only [post_bind, post_get]
    refine (oldRecord_spec h w.1.key.1 w.1.key.2).mono (fun old db1 heq => ?_) fun _ db1 heq => ?_
    · obtain ⟨rfl, -⟩ := heq
      refine post_attempt (fun _ _ => ?_) fun _ _ => hsame
      rw [post_onStore]
      exact (update_refuses E h.sound hopen hfit).mono (fun _ _ hF => hF.elim)
        fun _ _ hk => untouched_of_keeps hk
    · rw [heq]
      exact hsame
  | delete =>
    rw [hw] at hfit
    dsimp only at hfit ⊢
    rw [not_or] at hfit
    unfold delete
    simp only [post_bind]
    refine (oldRecord_spec h w.1.key.1 w.1.key.2).mono (fun old db1 heq => ?_) fun _ db1 heq => ?_
    · obtain ⟨rfl, -⟩ := heq
      rw [post_onStore]
      exact (delete_refuses E h.sound hopen hfit.1 hfit.2).mono (fun _ _ hF => hF.elim)
        fun _ _ hk => untouched_of_keeps hk
    · rw [heq]
      exact hsame

/-! ## The writes of a transaction -/

/-- The value that a record brings to a field with a constraint that an index backs. -/
def Brings (db : Database δ) (c : String) (rec : Record) (field : String) (v : Value) : Prop :=
  field ∈ db.uniqueOn c ∧ db.backed c field = true ∧
    filedValue (normalizeForStorage rec) field = some v

/-- Another write of the transaction is to another row of the collection. -/
def Beside (w q : WriteKey × Write) : Prop := q.1.key.1 = w.1.key.1 ∧ q.1.key.2 ≠ w.1.key.2

/-- Two puts hold one value of a constrained field. -/
def Clash (db : Database δ) (w q : WriteKey × Write) : Prop :=
  Beside w q ∧ ∃ rec rec' field v, w.2 = .put rec ∧ q.2 = .put rec' ∧
    db.Brings w.1.key.1 rec field v ∧ HoldsValue field v (normalizeForStorage rec')

/-- A put takes a value that another write of the transaction gives up. -/
def Takes (E : Env) (db : Database δ) (w q : WriteKey × Write) : Prop :=
  Beside w q ∧ ∃ rec old field v, w.2 = .put rec ∧ db.Brings w.1.key.1 rec field v ∧
    getRecord E db.store q.1.key.1 q.1.key.2 = .ok (some old) ∧ HoldsValue field v old

/-- Taken together, the writes break no schema, no size limit, no constraint and no
rule of the first committer. -/
structure Legal (E : Env) (db : Database δ) (txn : Transaction) : Prop where
  homes : ∀ w ∈ txn.writes.entries, (db.store.formatOf w.1.key.1).isSome
  fits : ∀ w ∈ txn.writes.entries, Fit E db w
  unwritten : ∀ w ∈ txn.writes.entries, checkUnwritten db.store txn.snapshot w.1.key = .ok ()
  reads : db.checkReads txn = .ok ()
  unique : ∀ w ∈ txn.writes.entries, ∀ rec, w.2 = .put rec → ∀ field v,
    db.Brings w.1.key.1 rec field v → ∀ id ≠ w.1.key.2, ∀ other,
      getRecord E db.store w.1.key.1 id = .ok (some other) →
        txn.written w.1.key.1 id = none → ¬ HoldsValue field v other
  apart : ∀ w ∈ txn.writes.entries, ∀ q ∈ txn.writes.entries, ¬ db.Clash w q

/-- Once the writes have passed the checks, they do not get in the way of each other. -/
structure Settled (E : Env) (K : Value → Prop) (db : Database δ) (txn : Transaction) : Prop where
  faithful : ∀ w ∈ txn.writes.entries, ∀ rec, w.2 = .put rec → Faithful K db w.1.key.1 rec
  keys : ∀ w ∈ txn.writes.entries, ∀ rec, w.2 = .put rec → ∀ field v,
    db.Brings w.1.key.1 rec field v → Plain field ∧ K v
  /-- Once the checks have passed, no write but the first can be refused. -/
  settles : db.checkCommit txn = .ok () →
    (∃ w ws, txn.writes.entries = w :: ws ∧ ¬ Fit E db w) ∨
      ∀ w ∈ txn.writes.entries, Fit E db w ∧ ∀ q ∈ txn.writes.entries, ¬ db.Clash w q

/-- And when they are legal, no put takes a value that another write gives up. -/
structure Independent (E : Env) (K : Value → Prop) (db : Database δ) (txn : Transaction) : Prop
    extends Settled E K db txn where
  freed : Legal E db txn → ∀ w ∈ txn.writes.entries, ∀ q ∈ txn.writes.entries, ¬ Takes E db w q

/-- Some of the writes are applied: what is stored under a key is what was, or what the
write to that key left. -/
def Partway (E : Env) (txn : Transaction) (db s : Database δ) : Prop :=
  ∀ k, s.store.stored k = db.store.stored k ∨
    ∃ q ∈ txn.writes.entries, q.1.key = k ∧ Leaves E db q (s.store.stored k)

/-- The same payload under the same format is the same record. -/
theorem get_congr {h h' : Heap} {c : String} {records records' : OrdMap RecordId Record}
    (hr : Reads E h c records) (hr' : Reads E h' c records') (hf : h'.formatOf = h.formatOf)
    {id : RecordId} (hs : h'.stored (c, id) = h.stored (c, id)) : records'.get id = records.get id := by
  obtain ⟨f, hfc, hr⟩ := hr
  obtain ⟨f', hfc', hr'⟩ := hr'
  rw [hf, hfc] at hfc'
  obtain rfl := Option.some.inj hfc'
  have heq := (hr' id).symm.trans ((congrArg _ hs).trans (hr id))
  exact Option.map_injective (fun _ _ hab => Except.ok.inj hab) heq

theorem backed_of_conflicts {db : Database δ} {c field : String} {exclude : Option RecordId}
    {rec : Record} (h : db.conflicts c exclude rec field = true) :
    db.backed c field = true ∧ ∃ v, filedValue rec field = some v := by
  unfold conflicts holders at h
  cases hv : filedValue rec field with
  | none =>
    rw [hv] at h
    cases h
  | some v =>
    rw [hv] at h
    refine ⟨?_, v, rfl⟩
    rw [← uniqueIndex_isSome]
    cases hi : db.uniqueIndex c field with
    | none =>
      rw [hi] at h
      cases h
    | some i => rfl

/-- Some of the writes are applied, and those in `ws` are still to come. -/
structure Underway (E : Env) (K : Value → Prop) (db : Database δ) (txn : Transaction)
    (ws : List (WriteKey × Write)) (s : Database δ) : Prop where
  follows : Follows E K db s
  partway : Partway E txn db s
  ahead : ∀ w ∈ ws, s.store.stored w.1.key = db.store.stored w.1.key
  ofTxn : ws <:+ txn.writes.entries

theorem Underway.start {db : Database δ} (h : InStep E K db) (txn : Transaction) :
    Underway E K db txn txn.writes.entries db :=
  ⟨.refl h, fun _ => .inl rfl, fun _ _ => rfl, List.suffix_rfl⟩

/-- A put that passed the constraints before the commit passes them when its turn comes. -/
theorem Underway.stillClear {db s : Database δ} {txn : Transaction} {ws : List (WriteKey × Write)}
    {w : WriteKey × Write} (u : Underway E K db txn (w :: ws) s) (hi : Settled E K db txn)
    (h : InStep E K db) (ho : Orderly K) {rec : Record} (hrec : w.2 = .put rec)
    (hapart : ∀ q ∈ txn.writes.entries, ¬ db.Clash w q)
    (hc : (db.store.formatOf w.1.key.1).isSome)
    (hcheck : db.checkUniqueConstraints w.1.key.1 (some w.1.key.2) (normalizeForStorage rec) = .ok ()) :
    s.checkUniqueConstraints w.1.key.1 (some w.1.key.2) (normalizeForStorage rec) = .ok () := by
  have hf := u.follows
  have hw : w ∈ txn.writes.entries := u.ofTxn.subset List.mem_cons_self
  rw [checkUnique_eq_ok] at hcheck ⊢
  intro field hfield
  have hon : s.uniqueOn w.1.key.1 = db.uniqueOn w.1.key.1 := by
    unfold uniqueOn
    rw [hf.constraints]
  rw [hon] at hfield
  have hclear := hcheck field hfield
  by_contra hconflict
  rw [Bool.not_eq_false] at hconflict
  obtain ⟨hbacked, v, hv⟩ := backed_of_conflicts hconflict
  have hbacked' : db.backed w.1.key.1 field = true := by
    unfold backed at hbacked ⊢
    rwa [← hf.shapes]
  have hbrings : db.Brings w.1.key.1 rec field v := ⟨hfield, hbacked', hv⟩
  obtain ⟨hplain, hKv⟩ := hi.keys w hw rec hrec field v hbrings
  obtain ⟨R, hR, -⟩ := h.reads _ hc
  obtain ⟨S, hS, -⟩ := hf.inStep.reads w.1.key.1 (by rw [hf.format]; exact hc)
  obtain ⟨-, id, r, hr, hne, hholds⟩ :=
    (conflicts_iff hf.inStep ho hS hplain hv hKv).mp hconflict
  rcases u.partway (w.1.key.1, id) with hsame | ⟨q, hq, hqk, hstored⟩
  · -- The other record was there before the commit.
    have hold : R.get id = some r := (get_congr hR hS hf.format hsame).symm.trans hr
    have := (conflicts_iff h ho hR hplain hv hKv).mpr ⟨hbacked', id, r, hold, hne, hholds⟩
    rw [hclear] at this
    cases this
  · -- The other record is what another write of the transaction left.
    have hqc : q.1.key.1 = w.1.key.1 := (Prod.ext_iff.mp hqk).1
    have hqid : q.1.key.2 = id := (Prod.ext_iff.mp hqk).2
    have hbeside : Beside w q := ⟨hqc, fun he => hne (by rw [← hqid, he])⟩
    unfold Leaves at hstored
    cases hqw : q.2 with
    | delete =>
      rw [hqw] at hstored
      rw [hS.absent_iff.mp hstored] at hr
      cases hr
    | put rec' =>
      rw [hqw] at hstored
      obtain ⟨bytes, payload, ⟨cid, codec, z, hfmt, hvalid, henc, rfl⟩, hstored⟩ := hstored
      rw [hqc] at hfmt
      obtain ⟨rec'', hdec, hsees⟩ := hi.faithful q hq rec' hqw _ (hqc ▸ hfmt) hvalid bytes henc
      obtain ⟨shape, hshape, hname⟩ := List.any_eq_true.mp hbacked'
      rw [decide_eq_true_eq] at hname
      have hkey := key_of_plain (h.legible _ shape hshape) (hname ▸ hplain)
      have hread : r = rec'' := by
        obtain ⟨f, hfS, hS⟩ := hS
        rw [hf.format, hfmt] at hfS
        obtain rfl := Option.some.inj hfS
        have hd := hS id
        rw [hstored, hr, Option.map_some, Option.map_some, decode_buildPayload, hdec] at hd
        exact (Except.ok.inj (Option.some.inj hd)).symm
      subst hread
      refine hapart q hq ⟨hbeside, rec, rec', field, v, hrec, hqw, hbrings, ?_⟩
      obtain ⟨k, hk, hkv⟩ := hholds
      refine ⟨k, ?_, hkv⟩
      rw [← hname, ← hkey] at hk ⊢
      rw [(hsees shape (hqc ▸ hshape)).1.1]
      exact hk

theorem Fit.follows {db s : Database δ} {w : WriteKey × Write} (hfit : Fit E db w)
    (hf : Follows E K db s) (hsame : s.store.stored w.1.key = db.store.stored w.1.key) :
    Fit E s w := by
  unfold Fit at hfit ⊢
  cases hw : w.2 with
  | put rec =>
    rw [hw] at hfit
    exact Storable.congr E hfit hf.format
  | delete =>
    rw [hw] at hfit
    rw [hsame]
    exact hfit

/-- The next write is carried out, and those behind it find their keys as they were. -/
theorem Underway.step {db s : Database δ} {txn : Transaction} {ws : List (WriteKey × Write)}
    {w : WriteKey × Write} (u : Underway E K db txn (w :: ws) s) (hi : Settled E K db txn)
    (h : InStep E K db) (ho : Orderly K) (hfit : Fit E db w)
    (hapart : ∀ q ∈ txn.writes.entries, ¬ db.Clash w q)
    (hc : (db.store.formatOf w.1.key.1).isSome)
    (hcheck : ∀ rec, w.2 = .put rec → db.checkUniqueConstraints w.1.key.1 (some w.1.key.2)
      (normalizeForStorage rec) = .ok ()) :
    Returns (applyWrite E U w) s fun _ => Underway E K db txn ws := by
  have hf := u.follows
  have hw : w ∈ txn.writes.entries := u.ofTxn.subset List.mem_cons_self
  have hdone := applyWrite_done (U := U) hf.inStep
    (hfit.follows hf (u.ahead w List.mem_cons_self)) (by rw [hf.format]; exact hc)
    fun rec hrec => u.stillClear hi h ho hrec hapart hc (hcheck rec hrec)
  refine (hdone.of_post (hdone.and (applyWrite_follows hf.inStep ho w fun rec hrec =>
    (hi.faithful w hw rec hrec).follows hf))).mono fun _ s' hs' => ?_
  obtain ⟨⟨hleft, hframe⟩, hf'⟩ := hs'
  have hsorted := (List.pairwise_cons.mp (txn.writes.sorted.sublist u.ofTxn.sublist)).1
  refine ⟨hf.trans hf', fun k => ?_, fun x hx => ?_, (List.suffix_cons w ws).trans u.ofTxn⟩
  · by_cases hk : k = w.1.key
    · refine .inr ⟨w, hw, hk.symm, ?_⟩
      rw [hk]
      unfold Leaves at hleft ⊢
      cases hwr : w.2 with
      | put rec =>
        rw [hwr] at hleft
        obtain ⟨bytes, payload, hst, hstored⟩ := hleft
        exact ⟨bytes, payload, hst.congr E hf.format.symm, hstored⟩
      | delete =>
        rw [hwr] at hleft
        exact hleft
    · rw [hframe k hk]
      exact u.partway k
  · have hne : x.1.key ≠ w.1.key := fun he => (hsorted x hx).ne' (ofLex.injective he)
    rw [hframe _ hne]
    exact u.ahead x (List.mem_cons_of_mem _ hx)

/-! ## The whole commit -/

theorem latestWriteTs_formatOf {h : Heap} {key : Key} {snapshot : ℕ} {u : Unit}
    (hok : checkUnwritten h snapshot key = .ok u) : (h.formatOf key.1).isSome := by
  obtain ⟨ts, hts, -⟩ := bind_eq_ok.mp hok
  unfold latestWriteTs at hts
  unfold formatOf
  cases hc : h.collections.get key.1 with
  | none =>
    rw [hc] at hts
    cases hts
  | some c => rfl

theorem checkWrite_ok {db : Database δ} {snapshot : ℕ} {w : WriteKey × Write} {u : Unit}
    (hok : db.checkWrite snapshot w = .ok u) : (db.store.formatOf w.1.key.1).isSome ∧
      ∀ rec, w.2 = .put rec → db.checkUniqueConstraints w.1.key.1 (some w.1.key.2)
        (normalizeForStorage rec) = .ok () := by
  obtain ⟨⟨⟩, hunwritten, hput⟩ := bind_eq_ok.mp hok
  refine ⟨latestWriteTs_formatOf hunwritten, fun rec hrec => ?_⟩
  rw [hrec] at hput
  obtain ⟨schema, -, hput⟩ := bind_eq_ok.mp hput
  split at hput
  · exact hput
  · cases hput

/-- Writes that are legal together pass the checks one by one, unless one takes a value
that another gives up. -/
theorem Legal.checkCommit {db : Database δ} {txn : Transaction} (hl : Legal E db txn)
    (hi : Independent E K db txn) (h : InStep E K db) (ho : Orderly K) :
    db.checkCommit txn = .ok () := by
  refine bind_eq_ok.mpr ⟨(), checkAll_eq_ok.mpr fun w hw => ?_, hl.reads⟩
  refine bind_eq_ok.mpr ⟨(), hl.unwritten w hw, ?_⟩
  have hfit := hl.fits w hw
  unfold Fit at hfit
  cases hrec : w.2 with
  | delete => rfl
  | put rec =>
    rw [hrec] at hfit
    dsimp only at hfit ⊢
    obtain ⟨_, _, ⟨cid, codec, z, hf, hvalid, -⟩, -⟩ := hfit
    obtain ⟨c, hc, heq⟩ := Option.map_eq_some_iff.mp hf
    cases heq
    unfold checkPut
    rw [schemaOf, hc, ok_bind, hvalid]
    dsimp only
    refine checkUnique_eq_ok.mpr fun field hfield => ?_
    by_contra hconflict
    rw [Bool.not_eq_false] at hconflict
    obtain ⟨hbacked, v, hv⟩ := backed_of_conflicts hconflict
    have hbrings : db.Brings w.1.key.1 rec field v := ⟨hfield, hbacked, hv⟩
    obtain ⟨hplain, hKv⟩ := hi.keys w hw rec hrec field v hbrings
    obtain ⟨R, hR, -⟩ := h.reads _ (hl.homes w hw)
    obtain ⟨-, id, r, hr, hne, hholds⟩ := (conflicts_iff h ho hR hplain hv hKv).mp hconflict
    have hget : getRecord E db.store w.1.key.1 id = .ok (some r) := hr ▸ hR.get h.sound id
    have hid : id ≠ w.1.key.2 := fun he => hne (he ▸ rfl)
    cases hq : txn.written w.1.key.1 id with
    | none => exact hl.unique w hw rec hrec field v hbrings id hid r hget hq hholds
    | some q =>
      -- The row that holds the value is one that the transaction writes as well.
      have hmem := (OrdMap.mem_entries txn.writes _ q).mpr hq
      exact hi.freed hl w hw _ hmem ⟨⟨rfl, hid⟩, rec, r, field, v, hrec, hbrings, hget, hholds⟩

/-- Writes that all fit and do not clash are carried out to the last. -/
theorem applyAll_done {db : Database δ} {txn : Transaction} (h : InStep E K db) (ho : Orderly K)
    (hi : Settled E K db txn)
    (hsettled : ∀ w ∈ txn.writes.entries, Fit E db w ∧ ∀ q ∈ txn.writes.entries, ¬ db.Clash w q)
    (hcheck : ∀ w ∈ txn.writes.entries, db.checkWrite txn.snapshot w = .ok ()) :
    Returns (forEach (applyWrite E U) txn.writes.entries) db fun _ => Underway E K db txn [] := by
  refine post_forEach (I := Underway E K db txn) (fun w ws s u => ?_) _ db (.start h txn)
  have hw : w ∈ txn.writes.entries := u.ofTxn.subset List.mem_cons_self
  have hok := checkWrite_ok (hcheck w hw)
  exact u.step hi h ho (hsettled w hw).1 (hsettled w hw).2 hok.1 hok.2

/-- A commit that fails has touched nothing, and it failed in its checks or over a write
that the store does not take. -/
theorem commit_whole {db : Database δ} (ho : Orderly K) (h : InStep E K db)
    (hopen : db.store.replaying = false) {txn : Transaction} (hi : Settled E K db txn) :
    Post (commit E U txn) db (fun _ _ => True) fun _ db' => Untouched db db' ∧
      (db.checkCommit txn = .ok () → ∃ w ∈ txn.writes.entries, ¬ Fit E db w) := by
  have hsame := @Untouched.refl _ db h.sound
  unfold commit
  by_cases hempty : txn.isEmpty
  · rw [if_pos hempty]
    trivial
  · rw [if_neg hempty]
    simp only [post_bind, post_get]
    refine post_attempt (fun _ hok => ?_) fun e he => ⟨hsame, fun hok => ?_⟩
    · rcases hi.settles hok with ⟨w, ws, hws, hfit⟩ | hall
      · rw [hws, forEach, post_bind]
        refine (applyWrite_refuses h hopen hfit).mono (fun _ _ hF => hF.elim) fun _ _ hu => ?_
        exact ⟨hu, fun _ => ⟨w, List.mem_cons_self, hfit⟩⟩
      · obtain ⟨⟨⟩, hwrites, -⟩ := bind_eq_ok.mp hok
        exact (applyAll_done h ho hi hall (checkAll_eq_ok.mp hwrites)).mono fun _ _ _ => trivial
    · rw [hok] at he
      cases he

def declaredRun : List IndexCommand := [.createCollection "c" signedSchema, .createIndex "c" "n" .hash]

/-- An empty collection with a unique field that an index backs. -/
def declared : Database Unit :=
  { run (IndexCommand.step Env.plain Upkeep.none) fresh declaredRun with
    uniqueConstraints := [("c", "n")] }

theorem inStep_declared : InStep Env.plain (· = .i64 7) declared := by
  have hfresh : InStep Env.plain (· = .i64 7) (fresh : Database Unit) := inStep_fresh rfl rfl
  have h := @run_invariant _ _ _ _ _ (IndexCommand.step_inStep (U := Upkeep.none) orderly_seven) _
    declaredRun hfresh ⟨trivial, fun _ hs => buildable_seven rfl hs, trivial⟩
  exact ⟨h.sound, h.reads, h.homes, h.legible⟩

def putSeven (ids : List RecordId) : Transaction :=
  ids.foldl (fun txn id => txn.buffer "c" id (.put sevenRecord)) (.new 0)

theorem storable_seven : Storable Env.plain declared.store "c" 1 sevenRecord :=
  ⟨[1, 0, 0, 0, 0, 0, 0, 0, 0, 0, 1, 7, 0, 0, 0, 0, 0, 0, 0, 27, 0, 0, 0, 27, 0, 0, 0], _,
    ⟨0, .new signedSchema, false, rfl, by decide, by decide, rfl⟩,
    by unfold Loggable; decide, by decide⟩

/-- A transaction that writes one row keeps out of its own way. -/
theorem settled_seven {db : Database Unit} (hformat : db.store.formatOf = declared.store.formatOf)
    (hshapes : db.shapes "c" = [.single "n"]) (hunique : db.uniqueOn "c" = ["n"]) {txn : Transaction}
    (hone : ∀ w ∈ txn.writes.entries, w = (toLex ("c", 1), .put sevenRecord)) :
    Settled Env.plain (· = .i64 7) db txn := by
  refine ⟨fun w hw rec hrec => ?_, fun w hw rec hrec field v hbrings => ?_,
    fun _ => .inr fun w hw => ⟨?_, fun q hq hclash => ?_⟩⟩
  · rw [hone w hw] at hrec ⊢
    cases hrec
    exact faithful_seven (congrFun hformat "c") hshapes
  · rw [hone w hw] at hrec hbrings
    cases hrec
    obtain ⟨hfield, -, hv⟩ := hbrings
    obtain rfl : field = "n" := List.mem_singleton.mp (hunique ▸ hfield)
    exact ⟨by decide, (Option.some.inj hv).symm⟩
  · rw [hone w hw]
    exact storable_seven.congr Env.plain hformat
  · have hbeside := hclash.1
    rw [hone w hw, hone q hq] at hbeside
    exact hbeside.2 rfl

end Database

end Adabt.Engine
