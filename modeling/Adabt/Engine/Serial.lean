import Adabt.Engine.Replays

/-! # Serial executions

A serial execution begins, says and commits one transaction before the next. Told
the same, a transaction writes the same, so whoever finds at its commit what it
was told at its snapshot may as well have run there. -/

set_option autoImplicit false

namespace Adabt.Engine
open Adabt.Core Adabt.Indexing Adabt.Library Adabt.Storage Adabt.Storage.Heap

variable {δ : Type} {E : Env} {U : Upkeep δ}

/-- Carry out one job from its beginning to its end. -/
def Job.perform (E : Env) (U : Upkeep δ) : Job → Session δ → Session δ
  | .txn past, s => run (Session.step E U) s
      (.begin :: (past.map fun p => .within s.next p.1) ++ [.commit s.next])
  | .call c, s => Session.step E U (.call c) s

/-- One job after another. -/
def serial (E : Env) (U : Upkeep δ) (s : Session δ) (jobs : List Job) : Session δ :=
  run (Job.perform E U) s jobs

/-! ## What is said decides what is answered -/

theorem Statement.Answers.unique {read : String → RecordId → Except Error (Option Record)}
    {rows : String → Except Error (List (RecordId × Record))} {own : OrdMap WriteKey Write}
    {st : Statement} {a b : Answer} (ha : st.Answers read rows own a)
    (hb : st.Answers read rows own b) : a = b := by
  cases st with
  | scan c =>
    unfold Statement.Answers at ha hb
    dsimp only at ha hb
    cases hr : rows c with
    | error e =>
      rw [hr] at ha hb
      exact ha.trans hb.symm
    | ok found =>
      rw [hr] at ha hb
      obtain ⟨seen, rfl, hseen⟩ := ha
      obtain ⟨seen', rfl, hseen'⟩ := hb
      have heq : seen = seen' := OrdMap.ext_get fun id => (hseen id).trans (hseen' id).symm
      rw [heq]
  | get c id => exact Eq.trans ha (Eq.symm hb)
  | insert c id rec => exact Eq.trans ha (Eq.symm hb)
  | update c id rec => exact Eq.trans ha (Eq.symm hb)
  | delete c id => exact Eq.trans ha (Eq.symm hb)

/-- The same statements on the same base are told the same. -/
theorem Transcript.Told.unique {base : Heap} {past past' : Transcript} (h : past.Told E base)
    (h' : past'.Told E base) (hst : past'.map (·.1) = past.map (·.1)) : past' = past := by
  induction past using List.reverseRecOn generalizing past' with
  | nil => exact List.map_eq_nil_iff.mp hst
  | append_singleton past p ih =>
    rcases List.eq_nil_or_concat past' with rfl | ⟨init, p', rfl⟩
    · simp at hst
    · rw [List.concat_eq_append] at h' hst ⊢
      rw [List.map_append, List.map_append] at hst
      obtain ⟨hinit, hlast⟩ := List.append_inj' hst rfl
      have hsub : ∀ {q : Transcript} {x}, Transcript.Told E base (q ++ [x]) → q.Told E base := by
        intro q x hq before st a after heq
        exact hq before st a (after ++ [x]) (by rw [heq, List.append_assoc]; rfl)
      obtain rfl := ih (hsub h) (hsub h') hinit
      obtain ⟨st, a⟩ := p
      obtain ⟨st', a'⟩ := p'
      obtain rfl : st' = st := by simpa using hlast
      rw [(h' init st' a' [] rfl).unique (h init st' a [] rfl)]

theorem Transcript.Told.congr {base base' : Heap} {past : Transcript} (h : past.Told E base)
    (a : Heap.Alike base base') : past.Told E base' := by
  intro before st x after heq
  rw [a.reads.1, a.reads.2]
  exact h before st x after heq

/-- Say one statement after another, with nothing in between. -/
def OpenTransaction.sayAll (E : Env) (store : Heap) (o : OpenTransaction) (sts : List Statement) :
    OpenTransaction :=
  sts.foldl (fun o st => o.say E store st) o

theorem Begun.sayAll {base store : Heap} (hb : base.Sound) (hs : store.Sound) (sts : List Statement)
    {o : OpenTransaction} (h : Begun E base store o) :
    Begun E base store (o.sayAll E store sts) ∧
      (o.sayAll E store sts).past.map (·.1) = o.past.map (·.1) ++ sts ∧
      (o.sayAll E store sts).txn.snapshot = o.txn.snapshot := by
  induction sts generalizing o with
  | nil => exact ⟨h, (List.append_nil _).symm, rfl⟩
  | cons st sts ih =>
    obtain ⟨hbegun, hpast, hsnap⟩ := ih (h.say hb hs st)
    obtain ⟨a, hsay, -, hkept⟩ := say_spec (E := E) store st o
    refine ⟨hbegun, ?_, hsnap.trans hkept.snapshot⟩
    refine hpast.trans ?_
    rw [hsay, List.map_append, List.append_assoc]
    rfl

/-! ## One job -/

namespace Database

/-- A database with one more snapshot open. -/
def watched (db : Database δ) : Database δ :=
  { db with store := { db.store with versions := db.store.versions.openSnapshot } }

theorem Alike.opened {db : Database δ} (hs : db.store.Sound) (hm : db.store.replaying = false)
    {opened : List ℕ} (ho : ∀ t ∈ opened, t ∈ db.store.versions.opened ∨
      t = db.store.versions.current) : Alike db { db with store := { db.store with
        versions := { db.store.versions with opened := opened } } } :=
  (Alike.refl hs hm).withStore ⟨hs, sound_opened hs ho, rfl, rfl, hm, hm⟩

theorem alike_watched {db : Database δ} (hs : db.store.Sound) (hm : db.store.replaying = false) :
    Alike db db.watched :=
  Alike.opened hs hm fun _ ht => (List.mem_append.mp ht).imp_right List.mem_singleton.mp

theorem alike_abort {db : Database δ} (hs : db.store.Sound) (hm : db.store.replaying = false)
    (txn : Transaction) : Alike db (abort txn db) :=
  Alike.opened hs hm fun _ ht => .inl (mem_of_mem_swapRemoveFirst ht)

/-- What a commit needs but that nothing was written since. -/
structure Admits (db : Database δ) (txn : Transaction) : Prop where
  homes : ∀ w ∈ txn.writes.entries, (db.store.formatOf w.1.key.1).isSome
  puts : ∀ w ∈ txn.writes.entries, ∀ rec, w.2 = .put rec →
    db.checkPut w.1.key.1 w.1.key.2 rec = .ok ()
  reads : db.strict = true → ∀ k ∈ observed txn, (db.store.formatOf k.1).isSome

theorem checkCommit_iff {db : Database δ} (hs : db.store.Sound) {txn : Transaction} :
    db.checkCommit txn = .ok () ↔ db.Admits txn ∧
      (∀ w ∈ txn.writes.entries, ¬ db.store.store.Since txn.snapshot w.1.key) ∧
      (db.strict = true → ∀ k ∈ observed txn, ¬ db.store.store.Since txn.snapshot k) := by
  have hwrite : ∀ w : WriteKey × Write, db.checkWrite txn.snapshot w = .ok () ↔
      ((db.store.formatOf w.1.key.1).isSome ∧ ¬ db.store.store.Since txn.snapshot w.1.key) ∧
        ∀ rec, w.2 = .put rec → db.checkPut w.1.key.1 w.1.key.2 rec = .ok () := by
    intro w
    unfold checkWrite
    rw [bind_eq_ok, ← checkUnwritten_iff hs]
    constructor
    · rintro ⟨⟨⟩, hu, hput⟩
      refine ⟨hu, fun rec hrec => ?_⟩
      rw [hrec] at hput
      exact hput
    · rintro ⟨hu, hput⟩
      refine ⟨(), hu, ?_⟩
      cases hrec : w.2 with
      | put rec => exact hput rec hrec
      | delete => rfl
  have hreads : db.checkReads txn = .ok () ↔ (db.strict = true → ∀ k ∈ observed txn,
      (db.store.formatOf k.1).isSome ∧ ¬ db.store.store.Since txn.snapshot k) := by
    unfold checkReads
    by_cases hst : db.strict = true
    · rw [if_pos hst, checkAll_eq_ok]
      simp only [checkUnwritten_iff hs, hst, true_implies]
    · rw [if_neg hst]
      simp [hst]
  unfold checkCommit
  rw [bind_eq_ok]
  constructor
  · rintro ⟨⟨⟩, hw, hr⟩
    have hw := fun w hmem => (hwrite w).mp (checkAll_eq_ok.mp hw w hmem)
    have hr := hreads.mp hr
    exact ⟨⟨fun w hmem => (hw w hmem).1.1, fun w hmem => (hw w hmem).2,
      fun hst k hk => (hr hst k hk).1⟩, fun w hmem => (hw w hmem).1.2, fun hst k hk => (hr hst k hk).2⟩
  · rintro ⟨ha, hw, hr⟩
    refine ⟨(), checkAll_eq_ok.mpr fun w hmem => (hwrite w).mpr ?_, hreads.mpr ?_⟩
    · exact ⟨⟨ha.homes w hmem, hw w hmem⟩, ha.puts w hmem⟩
    · exact fun hst k hk => ⟨ha.reads hst k hk, hr hst k hk⟩

/-- At a snapshot of now nothing was written since. -/
theorem checkCommit_current {db : Database δ} (hs : db.store.Sound) {txn : Transaction}
    (ht : txn.snapshot = db.store.versions.current) :
    db.checkCommit txn = .ok () ↔ db.Admits txn := by
  have hnone : ∀ k, ¬ db.store.store.Since txn.snapshot k := by
    rintro k ⟨v, hv, hlt⟩
    have hstamp : v.1 < db.store.versions.next := hs.store.stamps hv
    rw [ht] at hlt
    unfold VersionTracker.current at hlt
    omega
  rw [checkCommit_iff hs]
  exact ⟨fun h => h.1, fun h => ⟨h, fun w _ => hnone _, fun _ k _ => hnone k⟩⟩

theorem Alike.strict {db db' : Database δ} (a : Alike db db') : db'.strict = db.strict := by
  obtain ⟨h', -, rfl⟩ := a
  rfl

theorem Alike.checkPut {db db' : Database δ} (a : Alike db db') :
    db'.checkPut = db.checkPut := by
  have hschema : Heap.schemaOf db'.store = Heap.schemaOf db.store := by
    funext c
    unfold Heap.schemaOf
    rcases a.store.get c with ⟨hc, hc'⟩ | ⟨d, d', hc, hc', -, hcodec, -⟩
    · rw [hc, hc']
    · rw [hc, hc']
      dsimp only
      rw [hcodec]
  funext c id rec
  unfold Database.checkPut
  rw [hschema, a.unique]

/-- Whether a commit is admitted is decided by what is stored. -/
theorem Alike.admits {db db' : Database δ} (a : Alike db db') {txn txn' : Transaction}
    (hw : txn'.writes = txn.writes) (hr : txn'.reads = txn.reads) (h : db.Admits txn) :
    db'.Admits txn' := by
  have hobserved : observed txn' = observed txn := by
    unfold observed Transaction.written
    rw [hw, hr]
  refine ⟨?_, ?_, ?_⟩
  · rw [hw, a.store.format]
    exact h.homes
  · rw [hw, a.checkPut]
    exact h.puts
  · rw [hobserved, a.store.format, a.strict]
    exact h.reads

/-- Two commits of the same writes, both admitted or both refused. -/
theorem Alike.commit {db db' : Database δ} (a : Alike db db') {txn txn' : Transaction}
    (hw : txn'.writes = txn.writes)
    (hcheck : txn.isEmpty = false → (db.checkCommit txn = .ok () ↔ db'.checkCommit txn' = .ok ())) :
    Paired Alike (commit E U txn) db (Database.commit E U txn') db' := by
  have hempty : txn'.isEmpty = txn.isEmpty := by
    unfold Transaction.isEmpty
    rw [hw]
  unfold Database.commit
  rw [hempty, hw]
  by_cases he : txn.isEmpty
  · rw [if_pos he, if_pos he]
    exact .pure _ a
  · rw [if_neg he, if_neg he]
    refine Paired.get ((Paired.attempt_iff (hcheck (Bool.eq_false_iff.mpr he)) a).bind fun _ _ _ a1 => ?_)
    exact Paired.forEach (fun w _ _ a2 => a2.applyWrite w) _ a1

end Database

theorem Transcript.replay_snapshot (t t' : ℕ) (past : Transcript) :
    past.replay t' = { past.replay t with snapshot := t' } := by
  induction past using List.reverseRecOn with
  | nil => rfl
  | append_singleton past p ih =>
    rw [Transcript.replay_concat, Transcript.replay_concat, ih]
    rfl

namespace Session

/-- Two idle sessions over databases that hold the same. -/
structure Parallel (r r' : Session δ) : Prop where
  alike : Database.Alike r.db r'.db
  idle : r.opened = ∅
  idle' : r'.opened = ∅

theorem Parallel.refl {r : Session δ} (hs : r.db.store.Sound) (hm : r.db.store.replaying = false)
    (hi : r.opened = ∅) : Parallel r r := ⟨.refl hs hm, hi, hi⟩

theorem insert_insert (n : ℕ) (o o' : OpenTransaction) :
    ((∅ : OrdMap ℕ OpenTransaction).insert n o).insert n o' = (∅ : OrdMap _ _).insert n o' := by
  ext j : 1
  simp only [OrdMap.get_insert]
  split_ifs <;> rfl

theorem erase_insert (n : ℕ) (o : OpenTransaction) :
    ((∅ : OrdMap ℕ OpenTransaction).insert n o).erase n = ∅ := by
  ext j : 1
  simp only [OrdMap.get_insert, OrdMap.get_erase]
  split_ifs <;> rfl

theorem run_within (db : Database δ) (n next : ℕ) (done : List Job) (sts : List Statement)
    (o : OpenTransaction) :
    run (step E U) ⟨db, (∅ : OrdMap _ _).insert n o, next, done⟩ (sts.map (.within n)) =
      ⟨db, (∅ : OrdMap _ _).insert n (o.sayAll E db.store sts), next, done⟩ := by
  induction sts generalizing o with
  | nil => rfl
  | cons st sts ih =>
    rw [List.map_cons, run_cons, step_within (OrdMap.get_insert_self _ _ _)]
    dsimp only
    rw [insert_insert]
    exact ih _

/-- A transaction that begins now and says all of its statements. -/
def spoken (E : Env) (r : Session δ) (sts : List Statement) : OpenTransaction :=
  OpenTransaction.sayAll E r.db.watched.store ⟨.new r.db.store.versions.current, []⟩ sts

theorem spoken_begun {r : Session δ} (hs : r.db.store.Sound) (sts : List Statement) :
    Begun E r.db.store r.db.watched.store (r.spoken E sts) ∧
      (r.spoken E sts).past.map (·.1) = sts ∧
      (r.spoken E sts).txn.snapshot = r.db.store.versions.current :=
  (begun_begin hs).sayAll hs (sound_opened hs fun _ ht =>
    (List.mem_append.mp ht).imp_right List.mem_singleton.mp) sts

theorem perform_txn {r : Session δ} (hi : r.opened = ∅) (past : Transcript) :
    (Job.txn past).perform E U r = finish E U r.next (r.spoken E (past.map (·.1)))
      ⟨r.db.watched, (∅ : OrdMap _ _).insert r.next (r.spoken E (past.map (·.1))), r.next + 1,
        r.done⟩ := by
  have hbegin : step E U .begin r = ⟨r.db.watched, (∅ : OrdMap _ _).insert r.next
      ⟨.new r.db.store.versions.current, []⟩, r.next + 1, r.done⟩ := by
    rw [step, begin_eq, hi]
    rfl
  have hsay := run_within (E := E) (U := U) r.db.watched r.next (r.next + 1) r.done (past.map (·.1))
    ⟨.new r.db.store.versions.current, []⟩
  calc (Job.txn past).perform E U r
    _ = run (step E U) (step E U .begin r)
        (past.map (fun p => .within r.next p.1) ++ [.commit r.next]) := rfl
    _ = step E U (.commit r.next)
        (run (step E U) (step E U .begin r) ((past.map (·.1)).map (.within r.next))) := by
      rw [run_append, List.map_map]
      rfl
    _ = step E U (.commit r.next) ⟨r.db.watched, (∅ : OrdMap _ _).insert r.next
        (r.spoken E (past.map (·.1))), r.next + 1, r.done⟩ := by
      rw [hbegin, hsay]
      rfl
    _ = _ := step_commit (OrdMap.get_insert_self _ _ _)

/-- The same job from sessions that hold the same is told the same. -/
theorem Parallel.perform {r r' : Session δ} (p : Parallel r r') (j : Job) :
    Parallel (j.perform E U r) (j.perform E U r') ∧ ∃ ys,
      (j.perform E U r).done = r.done ++ ys ∧ (j.perform E U r').done = r'.done ++ ys := by
  have a := p.alike
  cases j with
  | call c => exact ⟨⟨a.call c, p.idle, p.idle'⟩, [.call c], rfl, rfl⟩
  | txn past =>
    rw [perform_txn p.idle, perform_txn p.idle']
    obtain ⟨hb, hsts, hsnap⟩ := spoken_begun (E := E) a.store.sound (past.map (·.1))
    obtain ⟨hb', hsts', hsnap'⟩ := spoken_begun (E := E) a.store.sound' (past.map (·.1))
    have hpast := hb.told.unique (hb'.told.congr a.store.symm) (hsts'.trans hsts.symm)
    have htxn : (r'.spoken E (past.map (·.1))).txn = { (r.spoken E (past.map (·.1))).txn with
        snapshot := (r'.spoken E (past.map (·.1))).txn.snapshot } := by
      rw [hb'.replays, hpast, Transcript.replay_snapshot
        (r.spoken E (past.map (·.1))).txn.snapshot, ← hb.replays]
    have hw : (r'.spoken E (past.map (·.1))).txn.writes = (r.spoken E (past.map (·.1))).txn.writes := by
      rw [htxn]
    have hr : (r'.spoken E (past.map (·.1))).txn.reads = (r.spoken E (past.map (·.1))).txn.reads := by
      rw [htxn]
    have haw : Database.Alike r.db.watched r'.db.watched :=
      ((Database.alike_watched a.store.sound a.store.mode).symm.trans a).trans
        (Database.alike_watched a.store.sound' a.store.mode')
    have hcommit := haw.commit (E := E) (U := U) hw fun _ => by
      rw [Database.checkCommit_current haw.store.sound hsnap,
        Database.checkCommit_current haw.store.sound' hsnap']
      exact ⟨haw.admits hw hr, haw.symm.admits hw.symm hr.symm⟩
    unfold finish
    cases hx : Database.commit E U (r.spoken E (past.map (·.1))).txn r.db.watched with
    | ok u db =>
      obtain ⟨db', hx', ad⟩ := hcommit.of_ok hx
      rw [hx']
      dsimp only
      refine ⟨⟨?_, erase_insert _ _, erase_insert _ _⟩, [.txn (r.spoken E (past.map (·.1))).past], rfl,
        by rw [hpast]⟩
      exact ((Database.alike_abort ad.store.sound ad.store.mode _).symm.trans ad).trans
        (Database.alike_abort ad.store.sound' ad.store.mode' _)
    | error e db =>
      obtain ⟨e', db', hx', ad⟩ := hcommit.of_error hx
      rw [hx']
      dsimp only
      refine ⟨⟨?_, erase_insert _ _, erase_insert _ _⟩, [], (List.append_nil _).symm,
        (List.append_nil _).symm⟩
      exact ((Database.alike_abort ad.store.sound ad.store.mode _).symm.trans ad).trans
        (Database.alike_abort ad.store.sound' ad.store.mode' _)

theorem Parallel.serial (js : List Job) {r r' : Session δ} (p : Parallel r r') :
    Parallel (serial E U r js) (Engine.serial E U r' js) ∧ ∃ ys,
      (Engine.serial E U r js).done = r.done ++ ys ∧ (Engine.serial E U r' js).done = r'.done ++ ys := by
  induction js generalizing r r' with
  | nil => exact ⟨p, [], (List.append_nil _).symm, (List.append_nil _).symm⟩
  | cons j js ih =>
    obtain ⟨p1, ys, hd, hd'⟩ := p.perform (E := E) (U := U) j
    obtain ⟨p2, zs, he, he'⟩ := ih p1
    refine ⟨p2, ys ++ zs, ?_, ?_⟩
    · rw [← List.append_assoc, ← hd]
      exact he
    · rw [← List.append_assoc, ← hd']
      exact he'

/-- A transaction that committed commits again, wherever it is told the same. -/
theorem perform_again {r : Session δ} (hi : r.opened = ∅) {db db' : Database δ}
    (a : Database.Alike db r.db) {o : OpenTransaction} (hreplays : o.txn = o.past.replay o.txn.snapshot)
    (htold : o.past.Told E r.db.store) (hs : db.store.Sound)
    (hok : Database.commit E U o.txn db = .ok () db') :
    ((Job.txn o.past).perform E U r).done = r.done ++ [.txn o.past] ∧
      ((Job.txn o.past).perform E U r).opened = ∅ ∧
      Database.Alike db' ((Job.txn o.past).perform E U r).db := by
  rw [perform_txn hi]
  obtain ⟨hb, hsts, hsnap⟩ := spoken_begun (E := E) a.store.sound' (o.past.map (·.1))
  have hpast : (r.spoken E (o.past.map (·.1))).past = o.past := htold.unique hb.told hsts
  have htxn : (r.spoken E (o.past.map (·.1))).txn = { o.txn with
      snapshot := (r.spoken E (o.past.map (·.1))).txn.snapshot } := by
    rw [hb.replays, hpast, Transcript.replay_snapshot o.txn.snapshot, ← hreplays]
  have hw : (r.spoken E (o.past.map (·.1))).txn.writes = o.txn.writes := by rw [htxn]
  have hr : (r.spoken E (o.past.map (·.1))).txn.reads = o.txn.reads := by rw [htxn]
  have haw := a.trans (Database.alike_watched a.store.sound' a.store.mode')
  have hcommit := haw.commit (E := E) (U := U) hw fun hne => by
    have hcheck := Database.checkCommit_of_ok hne hok
    rw [Database.checkCommit_current haw.store.sound' hsnap]
    exact ⟨fun h => haw.admits hw hr ((Database.checkCommit_iff hs).mp h).1, fun _ => hcheck⟩
  obtain ⟨db1, hx, ad⟩ := hcommit.of_ok hok
  unfold finish
  rw [hx]
  dsimp only
  refine ⟨by rw [hpast], erase_insert _ _, ?_⟩
  exact ad.trans (Database.alike_abort ad.store.sound' ad.store.mode' _)

end Session

end Adabt.Engine
