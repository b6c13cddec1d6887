import Adabt.Engine.Serial
import Mathlib.Data.List.Permutation

/-! # Serializability

Under the strict policy the rows that a transaction has read are checked when it
commits, so it was told what it would be told then. Only a row that came into a
scanned collection in the meantime goes unnoticed. -/

set_option autoImplicit false

namespace Adabt.Engine
open Adabt.Core Adabt.Indexing Adabt.Library Adabt.Storage Adabt.Storage.Heap

variable {δ : Type} {E : Env} {U : Upkeep δ}

/-! ## Validation -/

/-- The collections that were scanned. -/
def Transcript.scanned (past : Transcript) : List String :=
  past.filterMap fun p => match p.1 with
    | .scan c => some c
    | _ => none

/-- A row that the snapshot lacks has not come into a collection that was scanned, unless
the transaction writes it. -/
def NoPhantom (db : Database δ) (o : OpenTransaction) : Prop :=
  ∀ c ∈ o.past.scanned, ∀ id, db.store.store.see o.txn.snapshot (c, id) = none →
    o.txn.written c id = none → db.store.stored (c, id) = none

theorem Transcript.written_grows {before : Transcript} (after : Transcript) {k : WriteKey}
    (h : before.written.get k ≠ none) : (Transcript.written (before ++ after)).get k ≠ none := by
  induction after using List.reverseRecOn with
  | nil => rwa [List.append_nil]
  | append_singleton after p ih =>
    rw [← List.append_assoc, Transcript.written_concat]
    unfold noteWrite
    split
    · rw [OrdMap.get_insert]
      split_ifs
      · exact Option.some_ne_none _
      · exact ih
    · exact ih

/-- What a statement read is among the rows that the transaction has read. -/
theorem Transcript.noted_read (snapshot : ℕ) {before : Transcript} {st : Statement} {a : Answer}
    {k : Key} (hk : k ∈ Transaction.noted before.written st a) (after : Transcript) :
    k ∈ (Transcript.replay snapshot (before ++ (st, a) :: after)).reads := by
  induction after using List.reverseRecOn with
  | nil =>
    rw [Transcript.replay_concat]
    refine List.mem_append_right _ ?_
    rwa [(Transcript.replay_eq snapshot before).2]
  | append_singleton after p ih =>
    rw [← List.cons_append, ← List.append_assoc, Transcript.replay_concat]
    exact List.mem_append_left _ ih

theorem getRecord_congr {h h' : Heap} (hs : h.Sound) (hs' : h'.Sound) (hc : h'.codecOf = h.codecOf)
    {c : String} {id : RecordId} (hk : h'.stored (c, id) = h.stored (c, id)) :
    getRecord E h' c id = getRecord E h c id := by
  unfold getRecord
  rw [getBy_eq E (readable_newest hs.store), getBy_eq E (readable_newest hs'.store), hc,
    content_newest, content_newest]
  exact congrArg _ hk

theorem scan_congr {h h' : Heap} (hs : h.Sound) (hs' : h'.Sound) (hc : h'.codecOf = h.codecOf)
    {c : String} (hk : ∀ id, h'.stored (c, id) = h.stored (c, id)) :
    Heap.scan E h' c = Heap.scan E h c :=
  (answers_congr E (readable_newest hs.store) (readable_newest hs'.store) (congrFun hc c) fun id => by
    rw [content_newest, content_newest]
    exact hk id).2

/-- Where no collection is, nothing is stored. -/
theorem stored_of_no_codec {h : Heap} {c : String} (hc : h.codecOf c = none) (id : RecordId) :
    h.stored (c, id) = none := by
  unfold Heap.stored
  rw [← content_newest, content, Option.map_eq_none_iff.mp hc]
  rfl

/-- Under the strict policy a commit that succeeds finds what its transaction was told. -/
theorem Begun.told_now {K : Value → Prop} {base db db' : Database δ} {o : OpenTransaction}
    (h : Begun E base.store db.store o) (hb : base.InStep E K) (hs : db.store.Sound)
    (hstrict : db.strict = true) (hne : o.txn.isEmpty = false)
    (hok : Database.commit E U o.txn db = .ok () db') (hphantom : NoPhantom db o) :
    o.past.Told E db.store := by
  obtain ⟨-, hwrites, hreads⟩ := (Database.checkCommit_iff hs).mp (Database.checkCommit_of_ok hne hok)
  have hfresh : ∀ k, ¬ db.store.store.Since o.txn.snapshot k →
      db.store.stored k = base.store.stored k := fun k hk =>
    (VersionStore.see_eq_now hk).symm.trans (h.sees k)
  have hwritten : ∀ c id, o.txn.written c id ≠ none →
      db.store.stored (c, id) = base.store.stored (c, id) := by
    intro c id hw
    obtain ⟨w, hw⟩ := Option.ne_none_iff_exists'.mp hw
    exact hfresh _ (hwrites (toLex (c, id), w) ((OrdMap.mem_entries _ _ _).mpr hw))
  have hread : ∀ c id, (c, id) ∈ o.txn.reads →
      db.store.stored (c, id) = base.store.stored (c, id) := by
    intro c id hr
    by_cases hw : o.txn.written c id = none
    · refine hfresh _ (hreads hstrict (c, id) (List.mem_filter.mpr ⟨hr, ?_⟩))
      dsimp only
      rw [hw]
      rfl
    · exact hwritten c id hw
  intro before st a after heq
  have hanswers := h.told before st a after heq
  have hnoted : ∀ k ∈ Transaction.noted before.written st a, k ∈ o.txn.reads := by
    intro k hk
    rw [h.replays, heq]
    exact Transcript.noted_read _ hk after
  have hown : ∀ c id, before.written.get (toLex (c, id)) ≠ none → o.txn.written c id ≠ none := by
    intro c id hw
    unfold Transaction.written
    rw [← h.written, heq]
    exact Transcript.written_grows _ hw
  have hlook : ∀ c id, (before.written.get (toLex (c, id)) = none → (c, id) ∈ o.txn.reads) →
      look (getRecord E db.store) before.written c id =
        look (getRecord E base.store) before.written c id := by
    intro c id hmem
    unfold look
    cases hw : before.written.get (toLex (c, id)) with
    | some w => rfl
    | none => exact getRecord_congr hb.sound hs h.codecs (hread c id (hmem hw))
  have hone : ∀ {c id}, (before.written.get (toLex (c, id)) = none →
      (c, id) ∈ Transaction.noted before.written st a) →
      look (getRecord E db.store) before.written c id =
        look (getRecord E base.store) before.written c id := fun hmem =>
    hlook _ _ fun hn => hnoted _ (hmem hn)
  cases st with
  | scan c =>
    have hscan : Heap.scan E db.store c = Heap.scan E base.store c := by
      refine scan_congr hb.sound hs h.codecs fun id => ?_
      cases hcodec : base.store.codecOf c with
      | none =>
        rw [stored_of_no_codec hcodec, stored_of_no_codec (h.codecs ▸ hcodec)]
      | some codec =>
        have hsome : (base.store.formatOf c).isSome := by
          obtain ⟨d, hd, -⟩ := Option.map_eq_some_iff.mp hcodec
          rw [formatOf, hd]
          rfl
        obtain ⟨records, hrec, -⟩ := hb.reads c hsome
        by_cases hw : o.txn.written c id = none
        · cases hold : base.store.stored (c, id) with
          | none =>
            -- A row that was not there is checked by nothing but the absence of phantoms.
            refine hphantom c ?_ id ((h.sees _).trans hold) hw
            rw [heq]
            exact List.mem_filterMap.mpr ⟨(.scan c, a), by simp, rfl⟩
          | some payload =>
            rw [← hold]
            refine hread c id (hnoted _ ?_)
            unfold Statement.Answers at hanswers
            dsimp only at hanswers
            rw [hrec.scan hb.sound] at hanswers
            obtain ⟨seen, rfl, hseen⟩ := hanswers
            have hnone : before.written.get (toLex (c, id)) = none := by
              by_contra hb'
              exact hown c id hb' hw
            have hget := hseen id
            rw [hnone, OrdMap.insertAll_entries] at hget
            have hrow : records.get id ≠ none := fun hr =>
              Option.some_ne_none payload (hold.symm.trans (hrec.absent_iff.mpr hr))
            obtain ⟨r, hr⟩ := Option.ne_none_iff_exists'.mp hrow
            rw [hr] at hget
            exact List.mem_map.mpr ⟨(id, r), (OrdMap.mem_entries _ _ _).mpr hget, rfl⟩
        · exact hwritten c id hw
    unfold Statement.Answers at hanswers ⊢
    dsimp only at hanswers ⊢
    rwa [hscan]
  | get c id =>
    unfold Statement.Answers at hanswers ⊢
    dsimp only at hanswers ⊢
    rwa [hone fun hn => by simp [Transaction.noted, hn]]
  | insert c id rec =>
    unfold Statement.Answers at hanswers ⊢
    dsimp only at hanswers ⊢
    rwa [hone fun hn => by simp [Transaction.noted, hn]]
  | update c id rec =>
    unfold Statement.Answers at hanswers ⊢
    dsimp only at hanswers ⊢
    rwa [hone fun hn => by simp [Transaction.noted, hn]]
  | delete c id =>
    unfold Statement.Answers at hanswers ⊢
    dsimp only at hanswers ⊢
    rwa [hone fun hn => by simp [Transaction.noted, hn]]

/-! ## The serial order of a run -/

variable {K : Value → Prop}

namespace Database

theorem InStep.alike {db db' : Database δ} (h : InStep E K db) (a : Alike db db') :
    InStep E K db' := by
  obtain ⟨h', hs, rfl⟩ := a
  refine ⟨hs.sound', fun name hn => ?_, fun name hn => ?_, h.legible⟩
  · obtain ⟨records, ⟨f, hf, hr⟩, hi⟩ := h.reads name (by rwa [← hs.format])
    exact ⟨records, ⟨f, (congrFun hs.format name).trans hf, fun id =>
      (congrArg _ (congrFun hs.stored (name, id))).trans (hr id)⟩, hi⟩
  · exact h.homes name (by rwa [← hs.format])

theorem Untouched.alike {db db' : Database δ} (u : Untouched db db') (hs : db.store.Sound)
    (hm : db.store.replaying = false) : Alike db db' :=
  ⟨db'.store, (Heap.Alike.refl hs hm).keeps (.refl hs) u.store, u.rest⟩

end Database

/-- Every record reads back as the indexes are told of it, and no batch over a
collection with indexes is cut short. -/
def Call.Keeping (E : Env) (K : Value → Prop) : Call → Database δ → Prop
  | insert c _ rec, db | update c _ rec, db => Database.Faithful K db c rec
  | insertBatch c records, db => (∀ r ∈ records, Database.Faithful K db c r.2) ∧
      (db.shapes c = [] ∨ WholeBatch E db.store c records)
  | _, _ => True

theorem Call.inStep (ho : Orderly K) {db : Database δ} (h : db.InStep E K) (c : Call)
    (hc : c.Keeping E K db) : (exec (c.perform E U) db).InStep E K := by
  cases c with
  | insert c id rec =>
    exact ((Database.insert_follows (U := U) h ho id hc).mono (fun _ _ hf => hf.inStep)
      fun _ _ hf => hf.inStep).exec
  | insertBatch c records =>
    refine Post.exec (I := Database.InStep E K) ?_
    unfold Call.perform
    rw [post_bind]
    exact (Database.insertBatch_follows (U := U) h ho hc.1 hc.2).mono (fun _ _ hf => hf.inStep)
      fun _ _ hf => hf.inStep
  | update c id rec =>
    refine Post.exec (I := Database.InStep E K) ?_
    unfold Call.perform
    rw [post_bind]
    exact (Database.update_follows (U := U) h ho id hc).mono (fun _ _ hf => hf.inStep)
      fun _ _ hf => hf.inStep
  | delete c id =>
    refine Post.exec (I := Database.InStep E K) ?_
    unfold Call.perform
    rw [post_bind]
    exact (Database.delete_follows (U := U) h ho c id).mono (fun _ _ hf => hf.inStep)
      fun _ _ hf => hf.inStep
  | reclaim =>
    refine Post.exec (I := Database.InStep E K) ?_
    unfold Call.perform Database.reclaimVersions
    rw [post_bind, post_onStore]
    exact (keeps_reclaim E h.sound).mono fun _ _ k => (h.keeps k _).inStep

/-- A step is regular when what it stores reads back, when a commit's writes keep out of
each other's way, and when one that has written meets no phantom. -/
def Command.Regular (E : Env) (K : Value → Prop) : Command → Session δ → Prop
  | .commit i, s => ∀ o, s.opened.get i = some o →
      Database.Settled E K s.db o.txn ∧ (o.txn.isEmpty = false → NoPhantom s.db o)
  | .call c, s => c.Keeping E K s.db
  | _, _ => True

namespace Session

/-- The jobs done, in an order in which they can be carried out one after another, and a
place in it for every transaction that is open. -/
structure Ordered (E : Env) (U : Upkeep δ) (K : Value → Prop) (r s : Session δ) (js : List Job) :
    Prop where
  perm : js.Perm s.done
  replays : ∀ p q, js = p ++ q → (serial E U r p).done = p
  alike : Database.Alike s.db (serial E U r js).db
  inStep : s.db.InStep E K
  strict : s.db.strict = true
  consistent : s.Consistent
  begun : ∀ i o, s.opened.get i = some o → ∃ base p q, js = p ++ q ∧
    Database.Alike base (serial E U r p).db ∧ base.InStep E K ∧ Begun E base.store s.db.store o

theorem serial_append (r : Session δ) (p q : List Job) :
    serial E U r (p ++ q) = serial E U (serial E U r p) q := run_append _ _ _ _

/-- A job may be carried out last. -/
theorem replays_append {r : Session δ} {js : List Job} {j : Job}
    (h : ∀ p q, js = p ++ q → (serial E U r p).done = p)
    (hdone : (j.perform E U (serial E U r js)).done = (serial E U r js).done ++ [j]) :
    ∀ p q, js ++ [j] = p ++ q → (serial E U r p).done = p := by
  intro p q heq
  rcases List.eq_nil_or_concat q with rfl | ⟨init, last, rfl⟩
  · rw [List.append_nil] at heq
    rw [← heq, serial_append]
    exact hdone.trans (by rw [h js [] (List.append_nil _).symm])
  · rw [List.concat_eq_append, ← List.append_assoc] at heq
    exact h p init (List.append_inj' heq rfl).1

/-- A job that changes nothing may be carried out anywhere. -/
theorem replays_insert {r : Session δ} {js1 js2 : List Job} {j : Job}
    (h : ∀ p q, js1 ++ js2 = p ++ q → (serial E U r p).done = p)
    (hdone : (j.perform E U (serial E U r js1)).done = (serial E U r js1).done ++ [j])
    (hpar : Parallel (serial E U r js1) (j.perform E U (serial E U r js1))) :
    (∀ p q, js1 ++ j :: js2 = p ++ q → (serial E U r p).done = p) ∧
      ∀ p q, js1 ++ js2 = p ++ q → ∃ p' q', js1 ++ j :: js2 = p' ++ q' ∧
        (serial E U r p = serial E U r p' ∨ Parallel (serial E U r p) (serial E U r p')) := by
  constructor
  · intro p q heq
    rcases List.append_eq_append_iff.mp heq with ⟨m, rfl, hm⟩ | ⟨m, rfl, -⟩
    · cases m with
      | nil => exact h (js1 ++ []) js2 (by rw [List.append_nil])
      | cons x m =>
        obtain ⟨rfl, rfl⟩ := List.cons.inj hm
        obtain ⟨-, ys, hy, hy'⟩ := hpar.serial (E := E) (U := U) m
        rw [← serial_append, h (js1 ++ m) q (List.append_assoc _ _ _).symm,
          h js1 (m ++ q) rfl] at hy
        rw [serial_append]
        refine hy'.trans ?_
        rw [hdone, h js1 (m ++ q) rfl, List.append_cancel_left hy, List.append_assoc]
        rfl
    · exact h p (m ++ js2) (List.append_assoc _ _ _)
  · intro p q heq
    rcases List.append_eq_append_iff.mp heq with ⟨m, rfl, rfl⟩ | ⟨m, rfl, rfl⟩
    · refine ⟨js1 ++ j :: m, q, by simp, .inr ?_⟩
      rw [serial_append, serial_append]
      exact (hpar.serial m).1
    · exact ⟨p, m ++ j :: js2, by simp, .inl rfl⟩

/-- After a step the jobs done are in order again, when every old place is a new place. -/
theorem Ordered.advance {r s : Session δ} {js js' : List Job} (h : Ordered E U K r s js) (c : Command)
    (perm : js'.Perm (step E U c s).done) (replays : ∀ p q, js' = p ++ q → (serial E U r p).done = p)
    (alike : Database.Alike (step E U c s).db (serial E U r js').db)
    (inStep : (step E U c s).db.InStep E K) (strict : (step E U c s).db.strict = true)
    (places : ∀ p q, js = p ++ q → ∃ p' q', js' = p' ++ q' ∧
      (serial E U r p = serial E U r p' ∨ Parallel (serial E U r p) (serial E U r p')))
    (new : ∀ i o, s.next ≤ i → (step E U c s).opened.get i = some o → ∃ base p q, js' = p ++ q ∧
      Database.Alike base (serial E U r p).db ∧ base.InStep E K ∧
        Begun E base.store (step E U c s).db.store o) :
    Ordered E U K r (step E U c s) js' := by
  refine ⟨perm, replays, alike, inStep, strict, step_consistent c s h.consistent, fun i o' ho' => ?_⟩
  by_cases hi : i < s.next
  · obtain ⟨o, ho, -, -⟩ := step_carries h.consistent c hi ho'
    obtain ⟨base, p, q, heq, ha, hb, hbegun⟩ := h.begun i o ho
    obtain ⟨p', q', heq', hplace⟩ := places p q heq
    have hthen := step_begun hb.sound h.consistent c hi
      (fun d hd => Option.some.inj (hd.symm.trans ho) ▸ hbegun) ho'
    refine ⟨base, p', q', heq', ?_, hb, hthen⟩
    rcases hplace with hplace | hplace
    · rwa [← hplace]
    · exact ha.trans hplace.alike
  · exact new i o' (Nat.not_lt.mp hi) ho'

/-- A step that opens nothing and does no job. -/
theorem Ordered.keep {r s : Session δ} {js : List Job} (h : Ordered E U K r s js) (c : Command)
    (hdone : (step E U c s).done = s.done) (hnext : (step E U c s).next = s.next)
    (ha : Database.Alike s.db (step E U c s).db) : Ordered E U K r (step E U c s) js := by
  refine h.advance c (hdone ▸ h.perm) h.replays (ha.symm.trans h.alike) (h.inStep.alike ha)
    (ha.strict.trans h.strict) (fun p q heq => ⟨p, q, heq, .inl rfl⟩) fun i o hi ho => ?_
  rw [(step_consistent c s h.consistent).fresh i (hnext ▸ hi)] at ho
  cases ho

/-- A transaction that begins finds everything that was done before. -/
theorem Ordered.begin {r s : Session δ} {js : List Job} (h : Ordered E U K r s js) :
    Ordered E U K r (step E U .begin s) js := by
  have hw := Database.alike_watched h.alike.store.sound h.alike.store.mode
  refine h.advance .begin h.perm h.replays (hw.symm.trans h.alike) (h.inStep.alike hw) h.strict
    (fun p q heq => ⟨p, q, heq, .inl rfl⟩) fun i o hi ho => ?_
  rw [step, begin_eq, OrdMap.get_insert] at ho
  split_ifs at ho with hin
  · cases ho
    exact ⟨s.db, js, [], (List.append_nil _).symm, h.alike, h.inStep, begun_begin h.consistent.sound⟩
  · rw [h.consistent.fresh i hi] at ho
    cases ho

/-- A call outside of transactions comes last. -/
theorem Ordered.call {r s : Session δ} {js : List Job} (ho : Orderly K) (h : Ordered E U K r s js)
    (c : Call) (hc : c.Keeping E K s.db) :
    Ordered E U K r (step E U (.call c) s) (js ++ [.call c]) := by
  have hmoves := (Database.evolving_call (E := E) (U := U) c h.consistent.sound).exec
  refine h.advance (.call c) (h.perm.append_right _) (replays_append h.replays rfl) ?_
    (c.inStep ho h.inStep hc) (hmoves.strict.trans h.strict)
    (fun p q heq => ⟨p, q ++ [.call c], by rw [heq, List.append_assoc], .inl rfl⟩)
    fun i o hi hget => absurd (h.consistent.fresh i hi) (by rw [show s.opened.get i = some o from hget]; simp)
  rw [serial_append]
  exact h.alike.call c

/-- A transaction that has written nothing is done where it began. -/
theorem Ordered.commit_empty {r s : Session δ} {js : List Job} (hr : Parallel r r)
    (h : Ordered E U K r s js) {i : ℕ} {o : OpenTransaction} (ho : s.opened.get i = some o)
    (hempty : o.txn.isEmpty = true) : ∃ js', Ordered E U K r (step E U (.commit i) s) js' := by
  have hnothing : ∀ db : Database δ, Database.commit E U o.txn db = .ok () db := by
    intro db
    unfold Database.commit
    rw [if_pos hempty]
    rfl
  obtain ⟨base, p, q, rfl, ha, hb, hbegun⟩ := h.begun i o ho
  have hidle := (hr.serial (E := E) (U := U) p).1.idle
  obtain ⟨hdone, hidle', ha'⟩ := perform_again hidle ha hbegun.replays (hbegun.told.congr ha.store)
    ha.store.sound (hnothing base)
  have hpar : Parallel (serial E U r p) ((Job.txn o.past).perform E U (serial E U r p)) :=
    ⟨ha.symm.trans ha', hidle, hidle'⟩
  obtain ⟨hreplays, hplaces⟩ := replays_insert h.replays hdone hpar
  have hstep : step E U (.commit i) s =
      ⟨Database.abort o.txn s.db, s.opened.erase i, s.next, s.done ++ [.txn o.past]⟩ := by
    rw [step_commit ho, finish, hnothing]
  have habort := Database.alike_abort h.alike.store.sound h.alike.store.mode o.txn
  refine ⟨p ++ .txn o.past :: q, h.advance (.commit i) ?_ hreplays ?_ ?_ ?_ hplaces ?_⟩
  · rw [hstep]
    exact (List.perm_middle.trans (List.perm_append_singleton _ _).symm).trans (h.perm.append_right _)
  · rw [hstep]
    refine (habort.symm.trans h.alike).trans ?_
    rw [serial_append, serial_append]
    exact (hpar.serial q).1.alike
  · rw [hstep]
    exact h.inStep.alike habort
  · rw [hstep]
    exact h.strict
  · intro j o' hj hget
    rw [hstep, OrdMap.get_erase, h.consistent.fresh j hj, ite_self] at hget
    cases hget

/-- A transaction that has written is done last. -/
theorem Ordered.commit_written {r s : Session δ} {js : List Job} (hr : Parallel r r)
    (h : Ordered E U K r s js) (ho : Orderly K) {i : ℕ} {o : OpenTransaction}
    (hget : s.opened.get i = some o) (hsettled : Database.Settled E K s.db o.txn)
    (hne : o.txn.isEmpty = false) (hphantom : NoPhantom s.db o) {db' : Database δ}
    (hok : Database.commit E U o.txn s.db = .ok () db') :
    Ordered E U K r (step E U (.commit i) s) (js ++ [.txn o.past]) := by
  obtain ⟨base, p, q, heq, ha, hb, hbegun⟩ := h.begun i o hget
  have htold := hbegun.told_now hb h.consistent.sound h.strict hne hok hphantom
  obtain ⟨hdone, -, ha'⟩ := perform_again (hr.serial (E := E) (U := U) js).1.idle h.alike
    hbegun.replays (htold.congr h.alike.store) h.consistent.sound hok
  have habort := Database.alike_abort ha'.store.sound ha'.store.mode o.txn
  have hstep : step E U (.commit i) s =
      ⟨Database.abort o.txn db', s.opened.erase i, s.next, s.done ++ [.txn o.past]⟩ := by
    rw [step_commit hget, finish, hok]
  refine h.advance (.commit i) ?_ (replays_append h.replays hdone) ?_ ?_ ?_
    (fun p q heq => ⟨p, q ++ [.txn o.past], by rw [heq, List.append_assoc], .inl rfl⟩) ?_
  · rw [hstep]
    exact h.perm.append_right _
  · rw [hstep, serial_append]
    exact habort.symm.trans ha'
  · rw [hstep]
    refine Database.InStep.alike ?_ habort
    exact ((Database.commit_follows (U := U) h.inStep ho hsettled.faithful).of_ok hok).inStep
  · rw [hstep]
    have hmoves := (Database.evolving_commit (E := E) (U := U) o.txn h.consistent.sound).of_ok hok
    exact hmoves.strict.trans h.strict
  · intro j o' hj hget'
    rw [hstep, OrdMap.get_erase, h.consistent.fresh j hj, ite_self] at hget'
    cases hget'

/-- Every regular step keeps the jobs done in an order. -/
theorem step_ordered {r : Session δ} (hr : Parallel r r) (ho : Orderly K) (c : Command) (s : Session δ)
    (h : ∃ js, Ordered E U K r s js) (hc : c.Regular E K s) :
    ∃ js, Ordered E U K r (step E U c s) js := by
  obtain ⟨js, h⟩ := h
  have hs := h.alike.store.sound
  have hm := h.alike.store.mode
  cases c with
  | begin => exact ⟨js, h.begin⟩
  | call c => exact ⟨_, h.call ho c hc⟩
  | within i st =>
    refine ⟨js, ?_⟩
    cases hget : s.opened.get i with
    | none =>
      rw [(step_absent hget).1]
      exact h
    | some o =>
      have hstep := step_within (E := E) (U := U) hget st
      refine h.keep (.within i st) ?_ ?_ ?_
      all_goals rw [hstep]
      exact .refl hs hm
  | abort i =>
    refine ⟨js, ?_⟩
    cases hget : s.opened.get i with
    | none =>
      rw [(step_absent hget).2.2]
      exact h
    | some o =>
      have hstep := step_abort (E := E) (U := U) hget
      refine h.keep (.abort i) ?_ ?_ ?_
      all_goals rw [hstep]
      exact Database.alike_abort hs hm o.txn
  | commit i =>
    cases hget : s.opened.get i with
    | none =>
      rw [(step_absent hget).2.1]
      exact ⟨js, h⟩
    | some o =>
      obtain ⟨hsettled, hphantom⟩ := hc o hget
      cases hempty : o.txn.isEmpty with
      | true => exact h.commit_empty hr hget hempty
      | false =>
        cases hrun : Database.commit E U o.txn s.db with
        | ok u db' => exact ⟨_, h.commit_written hr ho hget hsettled hempty (hphantom hempty) hrun⟩
        | error e db' =>
          -- A commit that fails leaves everything as it is, so it is no job.
          have hwhole := Database.commit_whole (U := U) ho h.inStep hm hsettled
          have ha := (hwhole.of_error hrun).1.alike hs hm
          have hstep : step E U (.commit i) s =
              ⟨Database.abort o.txn db', s.opened.erase i, s.next, s.done⟩ := by
            rw [step_commit hget, finish, hrun]
          refine ⟨js, h.keep (.commit i) ?_ ?_ ?_⟩
          all_goals rw [hstep]
          exact ha.trans (Database.alike_abort ha.store.sound' ha.store.mode' o.txn)

def strictSeven : Database Unit := { Database.declared with strict := true }

theorem inStep_strictSeven : strictSeven.InStep Env.plain (· = .i64 7) :=
  have h := Database.inStep_declared
  ⟨h.sound, h.reads, h.homes, h.legible⟩

/-- One transaction looks for rows and finds none, and then adds one. -/
def sevenAdds : List Command :=
  [.begin, .within 0 (.scan "c"), .within 0 (.insert "c" 1 Database.sevenRecord), .commit 0]

/-- How many rows the scans of a job were told of. -/
def scannedRows : Job → List ℕ
  | .txn past => past.filterMap fun p => match p.2 with
    | .ok (.rows rows) => some rows.length
    | _ => none
  | .call _ => []

/-- Two transactions look for rows and find none, and then each adds one. -/
def bothAdd : List Command := [.begin, .begin, .within 0 (.scan "c"), .within 1 (.scan "c"),
  .within 0 (.insert "c" 1 Database.sevenRecord), .within 1 (.insert "c" 2 ∅), .commit 0, .commit 1]

end Session

end Adabt.Engine
