import Adabt.Engine.Proving
import Adabt.Engine.Ramp
import Adabt.Opt.Settling
import Adabt.Opt.Sink

/-! # Runs of experiments

Every call moves one experiment by the events that it hears, and leaves the
others where they stand. What was built for one stays recorded and masked while
another is built, or taken back. -/

set_option autoImplicit false

namespace Adabt.Engine.Proving
open Adabt.Core Adabt.Library Adabt.Opt

variable {Ctx σ Q R α : Type}

/-! ## Finding and changing -/

theorem find_some {db : Database σ} {id : ℕ} {live : LiveExperiment} (h : db.find id = some live) :
    live ∈ db.experiments ∧ live.experiment.id = id :=
  ⟨List.mem_of_find?_eq_some h, by
    have hid := List.find?_some h
    exact of_decide_eq_true hid⟩

theorem find_none {db : Database σ} {id : ℕ} (h : db.find id = none) :
    ∀ l ∈ db.experiments, l.experiment.id ≠ id := by
  intro l hl hid
  have hnot := List.find?_eq_none.mp h l hl
  rw [decide_eq_true_eq] at hnot
  exact hnot hid

theorem revise_ids {id : ℕ} {f : LiveExperiment → LiveExperiment}
    (hf : ∀ l, l.experiment.id = id → (f l).experiment.id = id) (ls : List LiveExperiment) :
    (Database.revise id f ls).map (·.experiment.id) = ls.map (·.experiment.id) := by
  induction ls with
  | nil => rfl
  | cons l ls ih =>
    rw [Database.revise]
    split_ifs with h
    · rw [List.map_cons, List.map_cons, hf l h, h]
    · rw [List.map_cons, List.map_cons, ih]

theorem mem_revise {id : ℕ} {f : LiveExperiment → LiveExperiment} {ls : List LiveExperiment}
    (hd : (ls.map (·.experiment.id)).Nodup) {l : LiveExperiment}
    (h : l ∈ Database.revise id f ls) : (l ∈ ls ∧ l.experiment.id ≠ id) ∨
      ∃ l₀ ∈ ls, l₀.experiment.id = id ∧ l = f l₀ := by
  induction ls with
  | nil => cases h
  | cons m ls ih =>
    rw [List.map_cons, List.nodup_cons] at hd
    rw [Database.revise] at h
    split_ifs at h with hm
    · rcases List.mem_cons.mp h with rfl | hl
      · exact .inr ⟨m, List.mem_cons_self, hm, rfl⟩
      · refine .inl ⟨List.mem_cons_of_mem m hl, fun hid => hd.1 ?_⟩
        rw [hm, ← hid]
        exact List.mem_map_of_mem hl
    · rcases List.mem_cons.mp h with rfl | hl
      · exact .inl ⟨List.mem_cons_self, hm⟩
      · rcases ih hd.2 hl with ⟨hmem, hne⟩ | ⟨l₀, hmem, hid, heq⟩
        · exact .inl ⟨List.mem_cons_of_mem m hmem, hne⟩
        · exact .inr ⟨l₀, List.mem_cons_of_mem m hmem, hid, heq⟩

/-- The first experiment with an id, and what stands around it. -/
theorem find_split {db : Database σ} {id : ℕ} {live : LiveExperiment} (h : db.find id = some live) :
    ∃ before after, db.experiments = before ++ live :: after ∧
      db.experiments.eraseP (fun l => l.experiment.id = id) = before ++ after := by
  obtain ⟨hlive, before, after, hsplit, hbefore⟩ := List.find?_eq_some_iff_append.mp h
  refine ⟨before, after, hsplit, ?_⟩
  rw [hsplit, List.eraseP_append_right _ (by simpa using hbefore)]
  exact congrArg (before ++ ·) (List.eraseP_cons_of_pos hlive)

/-! ## The controller at work -/

/-- What the controller's work on the sink leaves alone. -/
structure Aside (db db' : Database σ) : Prop where
  experiments : db'.experiments = db.experiments
  finished : db'.finished = db.finished
  nextExperimentId : db'.nextExperimentId = db.nextExperimentId
  recordingCandidate : db'.recordingCandidate = db.recordingCandidate
  hidden : ∀ id ∈ db.hidden.owners, id ∈ db'.hidden.owners

instance refl_aside : Std.Refl (Aside (σ := σ)) := ⟨fun _ => ⟨rfl, rfl, rfl, rfl, fun _ h => h⟩⟩

instance trans_aside : IsTrans (Database σ) Aside := ⟨fun _ _ _ h h' =>
  ⟨h'.experiments.trans h.experiments, h'.finished.trans h.finished,
    h'.nextExperimentId.trans h.nextExperimentId, h'.recordingCandidate.trans h.recordingCandidate,
    fun id hid => h'.hidden id (h.hidden id hid)⟩⟩

theorem within_onRest (x : EStateM Error σ α) : Within Aside (onRest x) := by
  intro db
  unfold Post onRest
  cases x db.rest with
  | ok a rest => exact ⟨rfl, rfl, rfl, rfl, fun _ h => h⟩
  | error e rest => exact ⟨rfl, rfl, rfl, rfl, fun _ h => h⟩

variable (E : Workings Ctx σ Q R)

theorem within_applyAction (action : Action) : Within Aside (applyAction E action) := by
  refine Within.bind (within_modify fun db => ?_) fun _ => within_onRest _
  cases hid : db.recordingCandidate with
  | none => exact refl_of Aside db
  | some id => exact ⟨rfl, rfl, rfl, hid.symm, fun _ h => Candidates.mem_owners_record h⟩

theorem canApply_aside (action : Action) (db : Database σ) : Aside db (canApply E action db).2 :=
  ⟨rfl, rfl, rfl, rfl, fun _ h => h⟩

/-- One decision, put through the controller. -/
structure Decided (d : Decision) (db db' : Database σ) : Prop extends Aside db db' where
  others : ∀ p ∈ db.controller.applied, place p.1 p.2.1 ≠ place d.optimization d.scope →
    p ∈ db'.controller.applied

theorem runDecisions_one (d : Decision) (inputs : Policy × Ctx) (db : Database σ) :
    Post (runDecisions E [d] inputs) db
      (fun report db' => Decided d db db' ∧ (report.rejected = [] → d.action ≠ .disable →
        ∃ plan, (d.optimization, d.scope, plan) ∈ db'.controller.applied))
      fun _ db' => Decided d db db' := by
  have hsink := within_applyDecision (R := Aside) (P := actionSink E) (within_applyAction E)
    (canApply_aside E) ⟨E.registry, inputs.1, inputs.2⟩ d
    ⟨db.controller, { db with controller := .new }⟩
  have happlied := applyDecision_applied ⟨E.registry, inputs.1, inputs.2⟩ (actionSink E) d
    ⟨db.controller, { db with controller := .new }⟩
  have hboth := hsink.and happlied
  have happly : apply ⟨E.registry, inputs.1, inputs.2⟩ (actionSink E) ⟨[], []⟩ [d] =
      applyDecision ⟨E.registry, inputs.1, inputs.2⟩ (actionSink E) d >>= fun verdict =>
        pure ((ApplyReport.mk [] []).note d.label verdict) := rfl
  have hpost : Post (apply ⟨E.registry, inputs.1, inputs.2⟩ (actionSink E) ⟨[], []⟩ [d])
      ⟨db.controller, { db with controller := .new }⟩
      (fun report s' => Decided d db { s'.sink with controller := s'.controller } ∧
        (report.rejected = [] → d.action ≠ .disable →
          ∃ plan, (d.optimization, d.scope, plan) ∈ s'.controller.applied))
      fun _ s' => Decided d db { s'.sink with controller := s'.controller } := by
    rw [happly, post_bind]
    refine hboth.mono (fun verdict s' h => ?_) fun _ s' h => ?_
    · obtain ⟨haside, hothers, hrecorded⟩ := h
      refine ⟨⟨⟨haside.experiments, haside.finished, haside.nextExperimentId,
        haside.recordingCandidate, haside.hidden⟩, hothers⟩, fun hnone => ?_⟩
      apply hrecorded
      by_contra hv
      rw [ApplyReport.note, if_neg hv] at hnone
      cases hnone
    · exact ⟨⟨h.1.experiments, h.1.finished, h.1.nextExperimentId, h.1.recordingCandidate,
        h.1.hidden⟩, h.2⟩
  unfold Post at hpost ⊢
  unfold runDecisions
  rw [if_neg (by simp)]
  cases hrun : apply ⟨E.registry, inputs.1, inputs.2⟩ (actionSink E) ⟨[], []⟩ [d]
      ⟨db.controller, { db with controller := .new }⟩ with
  | ok report s =>
    rw [hrun] at hpost
    exact hpost
  | error e s =>
    rw [hrun] at hpost
    exact hpost

/-! ## Ending an experiment -/

theorem post_onRest {x : EStateM Error σ α} {db : Database σ} {Q : α → Database σ → Prop}
    {F : Error → Database σ → Prop} (hok : ∀ a rest, Q a { db with rest := rest })
    (herror : ∀ e rest, F e { db with rest := rest }) : Post (onRest x) db Q F := by
  unfold Post onRest
  cases x db.rest with
  | ok a rest => exact hok a rest
  | error e rest => exact herror e rest

/-- One experiment is taken out, and what belongs to others stays. -/
structure Retired (live : LiveExperiment) (db db' : Database σ) : Prop where
  experiments : db'.experiments =
    db.experiments.eraseP fun l => l.experiment.id = live.experiment.id
  finished : db'.finished = db.finished ∨ db'.finished = db.finished ++ [live]
  nextExperimentId : db'.nextExperimentId = db.nextExperimentId
  recordingCandidate : db'.recordingCandidate = db.recordingCandidate
  hidden : ∀ id ∈ db.hidden.owners, id ≠ live.experiment.id → id ∈ db'.hidden.owners
  others : ∀ p ∈ db.controller.applied, place p.1 p.2.1 ≠
    place live.experiment.decision.optimization live.experiment.decision.scope →
    p ∈ db'.controller.applied

theorem retireExperiment_none {db : Database σ} {id : ℕ} (h : db.find id = none) (why : String)
    (promoted : Bool) : retireExperiment E id why promoted db = .ok () db := by
  have hget : (get : DbM σ (Database σ)) db = .ok db db := rfl
  unfold retireExperiment
  change EStateM.bind get _ db = _
  unfold EStateM.bind
  rw [hget]
  dsimp only
  rw [h]
  rfl

theorem retireExperiment_spec {db : Database σ} {id : ℕ} {live : LiveExperiment}
    (h : db.find id = some live) (why : String) (promoted : Bool) :
    Post (retireExperiment E id why promoted) db (fun _ => Retired live db)
      fun _ => Retired live db := by
  obtain rfl := (find_some h).2
  have hleave : ∀ (rest : σ) (db₁ : Database σ), Decided live.experiment.decision
      { db with
        experiments := db.experiments.eraseP fun l => l.experiment.id = live.experiment.id
        rest := rest } db₁ →
      Retired live db
        { db₁ with
          hidden := db₁.hidden.forget live.experiment.id
          candidateVisible := false
          underTest := none
          finished := db₁.finished ++ [live] } := by
    intro rest db₁ h₁
    exact
      { experiments := h₁.experiments
        finished := .inr (congrArg (· ++ [live]) h₁.finished)
        nextExperimentId := h₁.nextExperimentId
        recordingCandidate := h₁.recordingCandidate
        hidden := fun other hother hne =>
          Candidates.mem_owners_forget.mpr ⟨h₁.hidden other hother, hne⟩
        others := h₁.others }
  have hfail : ∀ (rest : σ) (db₁ : Database σ), Decided live.experiment.decision
      { db with
        experiments := db.experiments.eraseP fun l => l.experiment.id = live.experiment.id
        rest := rest } db₁ → Retired live db db₁ := by
    intro rest db₁ h₁
    exact
      { experiments := h₁.experiments
        finished := .inl h₁.finished
        nextExperimentId := h₁.nextExperimentId
        recordingCandidate := h₁.recordingCandidate
        hidden := fun other hother _ => h₁.hidden other hother
        others := h₁.others }
  have hsame : ∀ rest : σ, Decided live.experiment.decision
      { db with
        experiments := db.experiments.eraseP fun l => l.experiment.id = live.experiment.id
        rest := rest }
      { db with
        experiments := db.experiments.eraseP fun l => l.experiment.id = live.experiment.id
        rest := rest } :=
    fun rest => ⟨⟨rfl, rfl, rfl, rfl, fun _ h => h⟩, fun _ hp _ => hp⟩
  unfold retireExperiment
  rw [post_bind, post_get, h]
  dsimp only
  rw [post_bind, post_modify, post_bind, post_get]
  split_ifs
  · rw [post_bind]
    refine post_onRest (fun inputs rest => ?_) fun e rest => hfail rest _ (hsame rest)
    rw [post_bind]
    refine (runDecisions_one E _ inputs _).mono (fun report db₁ hdone => ?_) fun e db₁ hdone => ?_
    · exact hleave rest db₁ ⟨hdone.1.toAside, hdone.1.others⟩
    · exact hfail rest db₁ ⟨hdone.toAside, hdone.others⟩
  · exact hleave db.rest _ (hsame db.rest)

/-! ## Databases that are in order -/

/-- What was built for an experiment is recorded with the controller and masked. -/
def Standing (db : Database σ) (l : LiveExperiment) : Prop :=
  (∃ plan, (l.experiment.decision.optimization, l.experiment.decision.scope, plan) ∈
    db.controller.applied) ∧ l.experiment.id ∈ db.hidden.owners

structure Sound (db : Database σ) : Prop where
  distinct : ((db.experiments ++ db.finished).map (·.experiment.id)).Nodup
  bounded : ∀ l ∈ db.experiments ++ db.finished, l.experiment.id < db.nextExperimentId
  quiet : db.recordingCandidate = none
  apart : ∀ l ∈ db.experiments, ∀ m ∈ db.experiments, l.experiment.id ≠ m.experiment.id →
    scopesOverlap l.collection m.collection = false
  named : ∀ l ∈ db.experiments, ∃ names,
    l.collection = candidateCollection names l.experiment.decision.scope
  enables : ∀ l ∈ db.experiments, l.experiment.decision.action = .enable
  going : ∀ l ∈ db.experiments, l.phase.isTerminal = false
  ended : ∀ l ∈ db.finished, l.phase.isTerminal = true
  standing : ∀ l ∈ db.experiments, l.phase ≠ .proposed → Standing db l

theorem sound_opened (controller : OptimizationController) (rest : σ) :
    Sound (Database.opened controller rest) := by
  constructor
  · exact List.nodup_nil
  · intro l hl
    cases hl
  · rfl
  all_goals exact fun l hl => by cases hl

/-- Two scopes of one text cannot be apart. -/
theorem overlap_of_scope (names names' : List String) (scope : String) :
    scopesOverlap (candidateCollection names scope) (candidateCollection names' scope) = true := by
  unfold candidateCollection
  generalize String.ofList (scope.toList.takeWhile (· ≠ '.')) = first
  dsimp only
  by_cases h : first ∈ names
  · by_cases h' : first ∈ names'
    · rw [if_pos h, if_pos h']
      simp [scopesOverlap]
    · rw [if_pos h, if_neg h']
      simp [scopesOverlap]
  · rw [if_neg h]
    rfl

/-- Experiments that run together are about different scopes. -/
theorem Sound.places {db : Database σ} (h : Sound db) {l m : LiveExperiment}
    (hl : l ∈ db.experiments) (hm : m ∈ db.experiments) (hne : l.experiment.id ≠ m.experiment.id) :
    place l.experiment.decision.optimization l.experiment.decision.scope ≠
      place m.experiment.decision.optimization m.experiment.decision.scope := by
  intro heq
  obtain ⟨names, hnames⟩ := h.named l hl
  obtain ⟨names', hnames'⟩ := h.named m hm
  have hapart := h.apart l hl m hm hne
  rw [hnames, hnames', (place_inj.mp heq).2, overlap_of_scope] at hapart
  cases hapart

/-- The same experiment, at another moment. -/
structure Same (l l' : LiveExperiment) : Prop where
  id : l'.experiment.id = l.experiment.id
  decision : l'.experiment.decision = l.experiment.decision
  collection : l'.collection = l.collection

/-- What belongs to the other experiments is left alone. -/
structure Leaves (live : LiveExperiment) (db db' : Database σ) : Prop where
  nextExperimentId : db'.nextExperimentId = db.nextExperimentId
  recordingCandidate : db'.recordingCandidate = none
  hidden : ∀ id ∈ db.hidden.owners, id ≠ live.experiment.id → id ∈ db'.hidden.owners
  others : ∀ p ∈ db.controller.applied, place p.1 p.2.1 ≠
    place live.experiment.decision.optimization live.experiment.decision.scope →
    p ∈ db'.controller.applied

theorem Sound.standing_other {db db' : Database σ} (h : Sound db) {live : LiveExperiment}
    (hlive : live ∈ db.experiments) (hleaves : Leaves live db db') {l : LiveExperiment}
    (hl : l ∈ db.experiments) (hne : l.experiment.id ≠ live.experiment.id)
    (hp : l.phase ≠ .proposed) : Standing db' l := by
  obtain ⟨⟨plan, hplan⟩, hmasked⟩ := h.standing l hl hp
  exact ⟨⟨plan, hleaves.others _ hplan (h.places hl hlive hne)⟩, hleaves.hidden _ hmasked hne⟩

theorem Sound.unique {db : Database σ} (h : Sound db) :
    (db.experiments.map (·.experiment.id)).Nodup := by
  have hdistinct := h.distinct
  rw [List.map_append] at hdistinct
  exact (List.nodup_append.mp hdistinct).1

/-- What is left when an experiment is taken out has another id. -/
theorem Sound.mem_eraseP {db : Database σ} (h : Sound db) {id : ℕ} {live : LiveExperiment}
    (hfind : db.find id = some live) {l : LiveExperiment}
    (hl : l ∈ db.experiments.eraseP fun l => l.experiment.id = id) :
    l ∈ db.experiments ∧ l.experiment.id ≠ id := by
  obtain ⟨before, after, hsplit, herased⟩ := find_split hfind
  have hunique := h.unique
  rw [hsplit, List.map_append, List.map_cons, List.nodup_middle, ← List.map_append,
    List.nodup_cons, (find_some hfind).2] at hunique
  rw [herased] at hl
  refine ⟨?_, fun hid => hunique.1 (hid ▸ List.mem_map_of_mem hl)⟩
  rw [hsplit]
  exact ((List.sublist_cons_self live after).append_left before).subset hl

/-- One experiment moved on, and still runs. -/
theorem Sound.settle {db db' : Database σ} (h : Sound db) {id : ℕ} {live live' : LiveExperiment}
    (hfind : db.find id = some live) (hsame : Same live live') (hleaves : Leaves live db db')
    (hexperiments : db'.experiments = Database.revise id (fun _ => live') db.experiments)
    (hfinished : db'.finished = db.finished) (hgoing : live'.phase.isTerminal = false)
    (hstanding : live'.phase ≠ .proposed → Standing db' live') : Sound db' := by
  obtain ⟨hlive, rfl⟩ := find_some hfind
  have hmem : ∀ l ∈ db'.experiments, (l ∈ db.experiments ∧ l.experiment.id ≠ live.experiment.id) ∨
      l = live' := by
    intro l hl
    rw [hexperiments] at hl
    rcases mem_revise h.unique hl with hother | ⟨-, -, -, heq⟩
    · exact .inl hother
    · exact .inr heq
  have hids : (db'.experiments ++ db'.finished).map (·.experiment.id) =
      (db.experiments ++ db.finished).map (·.experiment.id) := by
    rw [List.map_append, List.map_append, hexperiments, hfinished,
      revise_ids fun _ _ => hsame.id]
  constructor
  · rw [hids]
    exact h.distinct
  · intro l hl
    have hid : l.experiment.id ∈ (db'.experiments ++ db'.finished).map (·.experiment.id) :=
      List.mem_map_of_mem hl
    rw [hids] at hid
    obtain ⟨m, hm, heq⟩ := List.mem_map.mp hid
    rw [hleaves.nextExperimentId, ← heq]
    exact h.bounded m hm
  · exact hleaves.recordingCandidate
  · intro l hl m hm hne
    rcases hmem l hl with ⟨hl, hlne⟩ | rfl
    · rcases hmem m hm with ⟨hm, -⟩ | rfl
      · exact h.apart l hl m hm hne
      · rw [hsame.collection]
        exact h.apart l hl live hlive hlne
    · rcases hmem m hm with ⟨hm, hmne⟩ | rfl
      · rw [hsame.collection]
        exact h.apart live hlive m hm hmne.symm
      · exact absurd rfl hne
  · intro l hl
    rcases hmem l hl with ⟨hl, -⟩ | rfl
    · exact h.named l hl
    · rw [hsame.collection, hsame.decision]
      exact h.named live hlive
  · intro l hl
    rcases hmem l hl with ⟨hl, -⟩ | rfl
    · exact h.enables l hl
    · rw [hsame.decision]
      exact h.enables live hlive
  · intro l hl
    rcases hmem l hl with ⟨hl, -⟩ | rfl
    · exact h.going l hl
    · exact hgoing
  · rw [hfinished]
    exact h.ended
  · intro l hl hp
    rcases hmem l hl with ⟨hl, hne⟩ | rfl
    · exact h.standing_other hlive hleaves hl hne hp
    · exact hstanding hp

/-- One experiment was taken out, and is kept with the finished ones or not. -/
theorem Sound.leave {db db' : Database σ} (h : Sound db) {id : ℕ} {live live' : LiveExperiment}
    (hfind : db.find id = some live) (hsame : Same live live') (hleaves : Leaves live db db')
    (hexperiments : db'.experiments = db.experiments.eraseP fun l => l.experiment.id = id)
    (hfinished : db'.finished = db.finished ∨ db'.finished = db.finished ++ [live'])
    (hended : live'.phase.isTerminal = true) : Sound db' := by
  obtain ⟨hlive, rfl⟩ := find_some hfind
  obtain ⟨before, after, hsplit, herased⟩ := find_split hfind
  have hmem : ∀ l ∈ db'.experiments, l ∈ db.experiments ∧ l.experiment.id ≠ live.experiment.id :=
    fun l hl => h.mem_eraseP hfind (hexperiments ▸ hl)
  rw [herased] at hexperiments
  have hfin : ∀ l ∈ db'.finished, l ∈ db.finished ∨ l = live' := by
    intro l hl
    rcases hfinished with heq | heq
    · exact .inl (heq ▸ hl)
    · rw [heq, List.mem_append, List.mem_singleton] at hl
      exact hl
  constructor
  · have hperm : (before ++ after ++ (db.finished ++ [live'])).map (·.experiment.id) |>.Perm
        ((db.experiments ++ db.finished).map (·.experiment.id)) := by
      rw [hsplit]
      simp only [List.map_append, List.map_cons, List.map_nil, hsame.id]
      rw [← List.append_assoc]
      refine (List.perm_append_singleton _ _).trans ?_
      rw [List.append_assoc, List.append_assoc, List.cons_append]
      exact List.perm_middle.symm
    have hall := hperm.nodup_iff.mpr h.distinct
    rw [hexperiments]
    rcases hfinished with heq | heq
    · rw [heq]
      refine hall.sublist (List.Sublist.map _ ?_)
      exact (List.sublist_append_left db.finished [live']).append_left _
    · rw [heq]
      exact hall
  · intro l hl
    rw [hleaves.nextExperimentId]
    rcases List.mem_append.mp hl with hl | hl
    · exact h.bounded l (List.mem_append_left _ (hmem l hl).1)
    · rcases hfin l hl with hl | rfl
      · exact h.bounded l (List.mem_append_right _ hl)
      · rw [hsame.id]
        exact h.bounded live (List.mem_append_left _ hlive)
  · exact hleaves.recordingCandidate
  · exact fun l hl m hm => h.apart l (hmem l hl).1 m (hmem m hm).1
  · exact fun l hl => h.named l (hmem l hl).1
  · exact fun l hl => h.enables l (hmem l hl).1
  · exact fun l hl => h.going l (hmem l hl).1
  · intro l hl
    rcases hfin l hl with hl | rfl
    · exact h.ended l hl
    · exact hended
  · exact fun l hl hp => h.standing_other hlive hleaves (hmem l hl).1 (hmem l hl).2 hp

/-! ## One experiment moves -/

open LiveExperiment in
/-- The experiment with this id goes through the events, and the others stand still. -/
structure Moves (id : ℕ) (es : List Event) (db db' : Database σ) : Prop where
  running : ∀ l' ∈ db'.experiments, (l' ∈ db.experiments ∧ l'.experiment.id ≠ id) ∨
    ∃ l, db.find id = some l ∧ l' = run step l es
  ended : ∀ l' ∈ db'.finished, l' ∈ db.finished ∨ ∃ l, db.find id = some l ∧ l' = run step l es
  next : db'.nextExperimentId = db.nextExperimentId

theorem same_refl (l : LiveExperiment) : Same l l := ⟨rfl, rfl, rfl⟩

theorem Same.trans {l m n : LiveExperiment} (h : Same l m) (h' : Same m n) : Same l n :=
  ⟨h'.id.trans h.id, h'.decision.trans h.decision, h'.collection.trans h.collection⟩

theorem same_advance (l : LiveExperiment) (ram : ℕ) : Same l (l.advance ram) := by
  have hadvanced := Experiment.advanced (l.fold ram).experiment
  have hnoted : (l.fold ram).experiment.noteProgress.id = l.experiment.id ∧
      (l.fold ram).experiment.noteProgress.decision = l.experiment.decision := by
    unfold Experiment.noteProgress
    split_ifs <;> exact ⟨rfl, rfl⟩
  unfold LiveExperiment.advance
  generalize (l.fold ram).experiment.advance = after at hadvanced
  cases hadvanced with
  | rests => exact ⟨rfl, rfl, rfl⟩
  | _ => exact ⟨hnoted.1, hnoted.2, rfl⟩

theorem same_settleIn (l l' : LiveExperiment) : Same l' (l.settleIn l') := by
  unfold LiveExperiment.settleIn
  split_ifs <;> exact ⟨rfl, rfl, rfl⟩

theorem same_step (e : LiveExperiment.Event) (l : LiveExperiment) :
    Same l (LiveExperiment.step e l) := by
  cases e with
  | advance ram => exact (same_advance l ram).trans (same_settleIn l _)
  | abort why =>
    rw [LiveExperiment.step]
    unfold Experiment.abort
    split_ifs <;> exact ⟨rfl, rfl, rfl⟩
  | _ => exact ⟨rfl, rfl, rfl⟩

theorem same_run (l : LiveExperiment) (es : List LiveExperiment.Event) :
    Same l (run LiveExperiment.step l es) := by
  induction es generalizing l with
  | nil => exact same_refl l
  | cons e es ih => exact (same_step e l).trans (ih _)

theorem find_update {db : Database σ} {id : ℕ} {live : LiveExperiment}
    {f : LiveExperiment → LiveExperiment} (h : db.find id = some live)
    (hf : (f live).experiment.id = id) : (db.update id f).find id = some (f live) := by
  obtain ⟨hid, before, after, hsplit, hbefore⟩ := List.find?_eq_some_iff_append.mp h
  have hrevised : Database.revise id f (before ++ live :: after) = before ++ f live :: after := by
    clear hsplit
    induction before with
    | nil => exact if_pos (of_decide_eq_true hid)
    | cons b before ih =>
      have hb : ¬ b.experiment.id = id := by simpa using hbefore b List.mem_cons_self
      rw [List.cons_append, Database.revise, if_neg hb,
        ih fun a ha => hbefore a (List.mem_cons_of_mem b ha)]
      rfl
  refine List.find?_eq_some_iff_append.mpr ⟨decide_eq_true hf, before, after, ?_, hbefore⟩
  rw [← hrevised, ← hsplit]
  rfl

theorem revise_self {db : Database σ} {id : ℕ} {live : LiveExperiment}
    (h : db.find id = some live) : Database.revise id (fun _ => live) db.experiments =
      db.experiments := by
  unfold Database.find at h
  generalize db.experiments = ls at h
  induction ls with
  | nil => rfl
  | cons l ls ih =>
    rw [Database.revise]
    by_cases hl : l.experiment.id = id
    · rw [List.find?_cons_of_pos (by simpa using hl)] at h
      rw [if_pos hl, Option.some.inj h]
    · rw [List.find?_cons_of_neg (by simpa using hl)] at h
      rw [if_neg hl, ih h]

theorem eraseP_revise {id : ℕ} {f : LiveExperiment → LiveExperiment}
    (hf : ∀ l, l.experiment.id = id → (f l).experiment.id = id) (ls : List LiveExperiment) :
    (Database.revise id f ls).eraseP (fun l => l.experiment.id = id) =
      ls.eraseP fun l => l.experiment.id = id := by
  induction ls with
  | nil => rfl
  | cons l ls ih =>
    rw [Database.revise]
    split_ifs with h
    · rw [List.eraseP_cons_of_pos (by simpa using hf l h), List.eraseP_cons_of_pos (by simpa using h)]
    · rw [List.eraseP_cons_of_neg (by simpa using h), List.eraseP_cons_of_neg (by simpa using h), ih]

theorem revise_revise {id : ℕ} {f g : LiveExperiment → LiveExperiment}
    (hf : ∀ l, l.experiment.id = id → (f l).experiment.id = id) (ls : List LiveExperiment) :
    Database.revise id g (Database.revise id f ls) = Database.revise id (fun l => g (f l)) ls := by
  induction ls with
  | nil => rfl
  | cons l ls ih =>
    rw [Database.revise, Database.revise]
    split_ifs with h
    · rw [Database.revise, if_pos (hf l h)]
    · rw [Database.revise, if_neg h, ih]

theorem revise_none {db : Database σ} {id : ℕ} (h : db.find id = none)
    (f : LiveExperiment → LiveExperiment) : db.update id f = db := by
  have hrest : Database.revise id f db.experiments = db.experiments := by
    have hne := find_none h
    generalize db.experiments = ls at hne
    induction ls with
    | nil => rfl
    | cons l ls ih =>
      rw [Database.revise, if_neg (hne l List.mem_cons_self),
        ih fun m hm => hne m (List.mem_cons_of_mem l hm)]
  rw [Database.update, hrest]

/-- In the middle of a call: one experiment has moved, the rest is as it was. -/
structure Amid (live live' : LiveExperiment) (db db' : Database σ) : Prop extends
    Leaves live db db' where
  experiments : db'.experiments = Database.revise live.experiment.id (fun _ => live') db.experiments
  finished : db'.finished = db.finished
  same : Same live live'

variable {db db' : Database σ} {live live' : LiveExperiment}

theorem Amid.find (h : Amid live live' db db') (hfind : db.find live.experiment.id = some live) :
    db'.find live.experiment.id = some live' := by
  have hupdate := find_update (f := fun _ => live') hfind h.same.id
  unfold Database.find at hupdate ⊢
  rw [h.experiments]
  exact hupdate

open LiveExperiment in
theorem Sound.settles (h : Sound db) (hfind : db.find live.experiment.id = some live)
    {es : List Event} (hamid : Amid live (run step live es) db db')
    (hgoing : (run step live es).phase.isTerminal = false)
    (hstanding : (run step live es).phase ≠ .proposed → Standing db' (run step live es)) :
    Sound db' ∧ Moves live.experiment.id es db db' := by
  refine ⟨h.settle hfind hamid.same hamid.toLeaves hamid.experiments hamid.finished hgoing
    hstanding, ⟨fun l hl => ?_, fun l hl => .inl (hamid.finished ▸ hl),
      hamid.nextExperimentId⟩⟩
  rw [hamid.experiments] at hl
  rcases mem_revise h.unique hl with hother | ⟨-, -, -, heq⟩
  · exact .inl hother
  · exact .inr ⟨live, hfind, heq⟩

open LiveExperiment in
/-- Retiring an experiment that has moved to its end. -/
theorem retire_amid (h : Sound db) (hfind : db.find live.experiment.id = some live)
    (es : List Event) (hamid : Amid live (run step live es) db db')
    (hended : (run step live es).phase.isTerminal = true) (why : String) (promoted : Bool) :
    Post (retireExperiment E live.experiment.id why promoted) db'
      (fun _ db'' => Sound db'' ∧ Moves live.experiment.id es db db'')
      fun _ db'' => Sound db'' ∧ Moves live.experiment.id es db db'' := by
  have hresult : ∀ db'', Retired (run step live es) db' db'' →
      Sound db'' ∧ Moves live.experiment.id es db db'' := by
    intro db'' hr
    have hid := hamid.same.id
    have hexperiments : db''.experiments =
        db.experiments.eraseP fun l => l.experiment.id = live.experiment.id := by
      rw [hr.experiments, hid, hamid.experiments, eraseP_revise fun _ _ => hid]
    have hleaves : Leaves live db db'' :=
      { nextExperimentId := hr.nextExperimentId.trans hamid.nextExperimentId
        recordingCandidate := hr.recordingCandidate.trans hamid.recordingCandidate
        hidden := fun id hmem hne => hr.hidden id (hamid.hidden id hmem hne) (hid ▸ hne)
        others := fun p hp hne => hr.others p (hamid.others p hp hne) (hamid.same.decision ▸ hne) }
    have hfinished : db''.finished = db.finished ∨
        db''.finished = db.finished ++ [run step live es] := by
      rw [← hamid.finished]
      exact hr.finished
    refine ⟨h.leave hfind hamid.same hleaves hexperiments hfinished hended, ⟨fun l hl => ?_,
      fun l hl => ?_, hleaves.nextExperimentId⟩⟩
    · rw [hexperiments] at hl
      exact .inl (h.mem_eraseP hfind hl)
    · rcases hfinished with heq | heq
      · exact .inl (heq ▸ hl)
      · rw [heq, List.mem_append, List.mem_singleton] at hl
        exact hl.imp_right fun heq => ⟨live, hfind, heq⟩
  exact (retireExperiment_spec E (hamid.same.id ▸ hamid.find hfind) why promoted).mono
    (fun _ => hresult) fun _ => hresult

/-! ## Aborting and building -/

theorem abort_terminal (e : Experiment) (why : String) : (e.abort why).phase.isTerminal = true := by
  unfold Experiment.abort
  split_ifs with h
  · exact h
  · rfl

open LiveExperiment in
theorem Amid.update {es : List Event} {e : Event} (h : Amid live (run step live es) db db')
    {f : LiveExperiment → LiveExperiment}
    (hf : ∀ l, f l = step e l) :
    Amid live (run step live (es ++ [e])) db (db'.update live.experiment.id f) := by
  have hlast : run step live (es ++ [e]) = f (run step live es) := by
    rw [run_append, hf]
    rfl
  refine ⟨⟨h.nextExperimentId, h.recordingCandidate, h.hidden, h.others⟩, ?_, h.finished,
    same_run live _⟩
  change Database.revise _ f db'.experiments = _
  rw [h.experiments, revise_revise fun _ _ => h.same.id, hlast]

open LiveExperiment in
theorem abort_amid (h : Sound db) (hfind : db.find live.experiment.id = some live)
    {es : List Event} (hamid : Amid live (run step live es) db db') (why : String) :
    Post (abortExperimentById E live.experiment.id why) db'
      (fun _ db'' => Sound db'' ∧ Moves live.experiment.id (es ++ [.abort why]) db db'')
      fun _ db'' => Sound db'' ∧ Moves live.experiment.id (es ++ [.abort why]) db db'' := by
  unfold abortExperimentById
  rw [post_bind, post_modify]
  have haborted : Amid live (run step live (es ++ [.abort why])) db
      (db'.update live.experiment.id fun l => { l with experiment := l.experiment.abort why }) :=
    hamid.update fun _ => rfl
  apply retire_amid E h hfind _ haborted
  rw [run_append]
  exact abort_terminal _ why

theorem post_unrecorded (x : DbM σ α) (db : Database σ) (Q : α → Database σ → Prop)
    (F : Error → Database σ → Prop) : Post (unrecorded x) db Q F ↔
      Post x db (fun a db' => Q a { db' with recordingCandidate := none })
        fun e db' => F e { db' with recordingCandidate := none } := by
  unfold Post unrecorded
  cases x db with
  | ok a db' => rfl
  | error e db' => rfl

theorem runTrial_spec (id : ℕ) (d : Decision) (db : Database σ) :
    Post (runTrial E id d) db
      (fun report db' => (db'.experiments = db.experiments ∧ db'.finished = db.finished ∧
        db'.nextExperimentId = db.nextExperimentId ∧ db'.recordingCandidate = none ∧
        ∀ id ∈ db.hidden.owners, id ∈ db'.hidden.owners) ∧
        (∀ p ∈ db.controller.applied, place p.1 p.2.1 ≠ place d.optimization d.scope →
          p ∈ db'.controller.applied) ∧
        (report.rejected = [] → d.action ≠ .disable →
          ∃ plan, (d.optimization, d.scope, plan) ∈ db'.controller.applied))
      fun _ _ => True := by
  unfold runTrial
  rw [post_bind, post_modify, post_bind]
  refine post_onRest (fun inputs rest => ?_) fun _ _ => trivial
  dsimp only
  rw [post_unrecorded]
  refine (runDecisions_one E _ inputs _).mono (fun report db' hdone => ?_) fun _ _ _ => trivial
  obtain ⟨hdecided, hrecorded⟩ := hdone
  exact ⟨⟨hdecided.experiments, hdecided.finished, hdecided.nextExperimentId, rfl,
    hdecided.hidden⟩, hdecided.others, hrecorded⟩

open LiveExperiment in
/-- Building a candidate: it stands afterwards, or its experiment has ended. -/
theorem buildCandidate_amid (h : Sound db) (hfind : db.find live.experiment.id = some live)
    (es : List Event) (hamid : Amid live (run step live es) db db')
    (hphase : (run step live es).phase = .building)
    (htrial : Returns (runTrial E live.experiment.id live.experiment.decision)
      (db'.update live.experiment.id (·.setRamBefore (E.derivedMemoryBytes db'.rest)))
      fun _ _ => True) :
    Post (buildCandidate E live.experiment.id) db'
      (fun _ db'' => Sound db'' ∧
        Moves live.experiment.id (es ++ built E (run step live es) db') db db'')
      fun _ db'' => Sound db'' ∧
        Moves live.experiment.id (es ++ built E (run step live es) db') db db'' := by
  have hweighed : Amid live (run step live (es ++ [.weighed (E.derivedMemoryBytes db'.rest)])) db
      (db'.update live.experiment.id (·.setRamBefore (E.derivedMemoryBytes db'.rest))) :=
    hamid.update fun _ => rfl
  have hspec := htrial.of_post (runTrial_spec E live.experiment.id live.experiment.decision _)
  obtain ⟨report, tried, hrun, hkept, hothers, hrecorded⟩ := hspec.exists
  have hbuilt : built E (run step live es) db' = .weighed (E.derivedMemoryBytes db'.rest) ::
      if !report.rejected.isEmpty || tried.hidden.isEmptyFor live.experiment.id then
        [.abort (refusalOf report)] else [] := by
    unfold built
    rw [hamid.same.id, hamid.same.decision]
    dsimp only
    rw [hrun]
  have htried : Amid live (run step live (es ++ [.weighed (E.derivedMemoryBytes db'.rest)])) db
      tried :=
    { nextExperimentId := hkept.2.2.1.trans hweighed.nextExperimentId
      recordingCandidate := hkept.2.2.2.1
      hidden := fun id hid hne => hkept.2.2.2.2 id (hweighed.hidden id hid hne)
      others := fun p hp hne => hothers p (hweighed.others p hp hne) hne
      experiments := hkept.1.trans hweighed.experiments
      finished := hkept.2.1.trans hweighed.finished
      same := hweighed.same }
  unfold buildCandidate
  rw [post_bind, post_get, hamid.find hfind]
  dsimp only
  rw [post_bind, post_modify, post_bind, hamid.same.decision]
  unfold Post
  rw [hrun]
  dsimp only
  change Post (_ : DbM σ Unit) tried _ _
  rw [post_bind, post_get, hbuilt]
  by_cases hrefused : (!report.rejected.isEmpty || tried.hidden.isEmptyFor live.experiment.id) = true
  · rw [if_pos hrefused, if_pos hrefused, List.append_cons]
    exact abort_amid E h hfind htried (refusalOf report)
  · rw [if_neg hrefused, if_neg hrefused]
    rw [Bool.or_eq_true, not_or, Bool.not_eq_true', Bool.not_eq_false, List.isEmpty_iff,
      Candidates.isEmptyFor_iff, not_not] at hrefused
    have henables := h.enables live (find_some hfind).1
    have hweight : (run step live (es ++ [.weighed (E.derivedMemoryBytes db'.rest)])).phase =
        .building := by
      rw [run_append]
      exact hphase
    apply h.settles hfind htried
    · rw [hweight]
      rfl
    · intro _
      have hdecision := htried.same.decision
      have hid := htried.same.id
      unfold Standing
      rw [hdecision, hid]
      exact ⟨hrecorded hrefused.1 (by rw [henables]; decide), hrefused.2⟩

/-! ## The calls -/

/-- From the first phase the way leads to building, or to the end. -/
theorem advance_proposed {l : LiveExperiment} (h : l.phase = .proposed) (ram : ℕ) :
    (l.advance ram).phase = .building ∨ (l.advance ram).phase = .reverted := by
  have hadvanced := Experiment.advanced (l.fold ram).experiment
  have hphase : (l.fold ram).experiment.phase = .proposed := h
  change (l.fold ram).experiment.advance.phase = _ ∨ (l.fold ram).experiment.advance.phase = _
  generalize (l.fold ram).experiment.advance = after at hadvanced
  cases hadvanced with
  | rests ht =>
    rw [hphase] at ht
    cases ht
  | aborts => exact .inr rfl
  | waits hm =>
    rw [hphase] at hm
    cases hm
  | climbs phase _ hn =>
    rw [hphase] at hn
    exact .inl (Option.some.inj hn).symm

/-- The trial of a candidate that is about to be built does not fail. -/
def Trialable : Call Q σ → Database σ → Prop
  | .advance id, db => ∀ live, db.find id = some live →
    (live.advance (E.derivedMemoryBytes db.rest)).phase = .building →
    Returns (runTrial E id live.experiment.decision)
      ((db.update id fun _ => live.advance (E.derivedMemoryBytes db.rest)).update id
        (·.setRamBefore (E.derivedMemoryBytes db.rest))) fun _ _ => True
  | _, _ => True

open LiveExperiment in
/-- An advance that ends in no building and no end. -/
theorem settles_advance (h : Sound db) (hfind : db.find live.experiment.id = some live) {ram : ℕ}
    (hamid : Amid live (run step live [.advance ram]) db db')
    (hcontroller : db'.controller = db.controller) (hhidden : db'.hidden = db.hidden)
    (hgoing : (live.advance ram).phase.isTerminal = false) (hp : live.phase ≠ .proposed) :
    Sound db' ∧ Moves live.experiment.id [.advance ram] db db' := by
  have hphase : (run step live [.advance ram]).phase = (live.advance ram).phase := by
    rw [run_cons, run_nil, phase, step_advance_experiment]
    rfl
  apply h.settles hfind hamid
  · rw [hphase]
    exact hgoing
  · intro _
    unfold Standing
    rw [hamid.same.id, hamid.same.decision, hcontroller, hhidden]
    exact h.standing live (find_some hfind).1 hp

theorem post_enterPhase_reverted (id : ℕ) (db : Database σ) (P : Unit → Database σ → Prop)
    (F : Error → Database σ → Prop) :
    Post (enterPhase E id .reverted) db P F ↔ Post (retireExperiment E id
      (((db.find id).map (·.experiment.outcome)).getD "reverted") false) db P F := Iff.rfl

open LiveExperiment in
theorem advanceOne_moves (h : Sound db) {id : ℕ}
    (hbuilds : Trialable E (.advance id : Call Q σ) db) [DecidableEq R] :
    Post (advanceOne E id) db
      (fun _ db' => Sound db' ∧ Moves id (heard E id (.advance id) db) db db')
      fun _ db' => Sound db' ∧ Moves id (heard E id (.advance id) db) db db' := by
  unfold advanceOne heard
  rw [post_bind, post_get]
  cases hfind : db.find id with
  | none => exact ⟨h, fun l hl => .inl ⟨hl, find_none hfind l hl⟩, fun _ hl => .inl hl, rfl⟩
  | some live =>
    obtain ⟨hlive, rfl⟩ := find_some hfind
    have hbuilds := hbuilds live hfind
    dsimp only
    rw [if_pos rfl]
    generalize hram : E.derivedMemoryBytes db.rest = ram at hbuilds
    have hadvanced : Amid live (live.advance ram) db
        (db.update live.experiment.id fun _ => live.advance ram) :=
      ⟨⟨rfl, h.quiet, fun _ hid _ => hid, fun _ hp _ => hp⟩, rfl, rfl, same_advance live ram⟩
    rw [post_bind]
    change Post _ (db.update live.experiment.id fun _ => live.advance ram) _ _
    by_cases hmoved : (live.advance ram).phase = live.phase
    · have hquiet : run step live [.advance ram] = live.advance ram := settleIn_same hmoved
      rw [if_neg (fun hne => hne hmoved), if_neg (fun hne => hne.1 hmoved)]
      refine settles_advance h hfind (hquiet ▸ hadvanced) rfl rfl (hmoved ▸ h.going live hlive) ?_
      intro hproposed
      rcases advance_proposed hproposed ram with hphase | hphase
      · rw [hphase, hproposed] at hmoved
        cases hmoved
      · rw [hphase, hproposed] at hmoved
        cases hmoved
    · rw [if_pos hmoved, post_bind]
      have hproposed : (live.advance ram).phase ≠ .building →
          (live.advance ram).phase ≠ .reverted → live.phase ≠ .proposed := by
        intro hb hr hproposed
        rcases advance_proposed hproposed ram with hphase | hphase
        · exact hb hphase
        · exact hr hphase
      have hunmeasured : (live.advance ram).phase.isMeasuring = false →
          run step live [.advance ram] = live.advance ram := by
        intro hm
        exact if_neg fun hne => by rw [hm] at hne; cases hne.2
      have hmeasured : (live.advance ram).phase.isMeasuring = true →
          Amid live (run step live [.advance ram]) db
            ((db.update live.experiment.id fun _ => live.advance ram).update live.experiment.id
              (·.resetMeasurements)) := by
        intro hm
        have hreset : run step live [.advance ram] = (live.advance ram).resetMeasurements :=
          settleIn_entered hmoved hm
        rw [hreset]
        refine ⟨⟨rfl, h.quiet, fun _ hid _ => hid, fun _ hp _ => hp⟩, ?_, rfl,
          hadvanced.same.trans ⟨rfl, rfl, rfl⟩⟩
        exact revise_revise (fun _ _ => hadvanced.same.id) db.experiments
      cases hphase : (live.advance ram).phase with
      | building =>
        rw [hphase] at hunmeasured hmoved
        have hquiet := hunmeasured rfl
        have hbuilt := buildCandidate_amid E h hfind [.advance ram]
          (hquiet.symm ▸ hadvanced) (hquiet.symm ▸ hphase)
        rw [hquiet] at hbuilt
        have htrial : Returns (runTrial E live.experiment.id live.experiment.decision)
            ((db.update live.experiment.id fun _ => live.advance ram).update live.experiment.id
              (·.setRamBefore (E.derivedMemoryBytes db.rest))) fun _ _ => True := by
          rw [hram]
          exact hbuilds hphase
        have hcond : Phase.building ≠ live.phase ∧ Phase.building = Phase.building :=
          ⟨hmoved, rfl⟩
        rw [if_pos hcond]
        exact hbuilt htrial
      | proposed =>
        rw [if_neg fun hne => by cases hne.2]
        have hquiet := hunmeasured (by rw [hphase]; rfl)
        exact settles_advance h hfind (hquiet.symm ▸ hadvanced) rfl rfl (by rw [hphase]; rfl)
          (hproposed (by rw [hphase]; decide) (by rw [hphase]; decide))
      | shadow =>
        rw [if_neg fun hne => by cases hne.2]
        exact settles_advance h hfind (hmeasured (by rw [hphase]; rfl)) rfl rfl
          (by rw [hphase]; rfl) (hproposed (by rw [hphase]; decide) (by rw [hphase]; decide))
      | canary percent =>
        rw [if_neg fun hne => by cases hne.2]
        exact settles_advance h hfind (hmeasured (by rw [hphase]; rfl)) rfl rfl
          (by rw [hphase]; rfl) (hproposed (by rw [hphase]; exact Phase.noConfusion)
            (by rw [hphase]; exact Phase.noConfusion))
      | promoted =>
        rw [if_neg fun hne => by cases hne.2]
        have hquiet := hunmeasured (by rw [hphase]; rfl)
        exact retire_amid E h hfind [.advance ram] (hquiet.symm ▸ hadvanced)
          (by rw [hquiet, hphase]; rfl) "promoted" true
      | reverted =>
        rw [if_neg fun hne => by cases hne.2]
        have hquiet := hunmeasured (by rw [hphase]; rfl)
        rw [post_enterPhase_reverted]
        exact retire_amid E h hfind [.advance ram] (hquiet.symm ▸ hadvanced)
          (by rw [hquiet, hphase]; rfl) _ false

theorem abort_moves (h : Sound db) [DecidableEq R] (id : ℕ) (why : String) :
    Post (abortExperimentById E id why) db
      (fun _ db' => Sound db' ∧ Moves id (heard E id (.abort id why) db) db db')
      fun _ db' => Sound db' ∧ Moves id (heard E id (.abort id why) db) db db' := by
  unfold heard
  cases hfind : db.find id with
  | none =>
    unfold abortExperimentById
    rw [post_bind, post_modify, revise_none hfind]
    unfold Post
    rw [retireExperiment_none E hfind]
    exact ⟨h, fun l hl => .inl ⟨hl, find_none hfind l hl⟩, fun _ hl => .inl hl, rfl⟩
  | some live =>
    obtain ⟨hlive, rfl⟩ := find_some hfind
    have hcond : live.experiment.id = live.experiment.id ∧ (some live).isSome = true := ⟨rfl, rfl⟩
    dsimp only
    rw [if_pos hcond]
    have hstart : Amid live (run LiveExperiment.step live []) db db :=
      ⟨⟨rfl, h.quiet, fun _ hid _ => hid, fun _ hp _ => hp⟩, (revise_self hfind).symm, rfl,
        same_refl live⟩
    exact abort_amid E h hfind hstart why

/-- A query changes no experiment by itself. -/
def Queried (db db' : Database σ) : Prop := ∃ visible underTest rest,
  db' = { db with candidateVisible := visible, underTest := underTest, rest := rest }

instance refl_queried : Std.Refl (Queried (σ := σ)) := ⟨fun _ => ⟨_, _, _, rfl⟩⟩

instance trans_queried : IsTrans (Database σ) Queried :=
  ⟨fun _ _ _ ⟨_, _, _, h⟩ ⟨v, u, r, h'⟩ => ⟨v, u, r, by rw [h', h]⟩⟩

theorem within_queryIn (mode : QueryMode) (q : Q) : Within Queried (queryIn E mode q) := by
  intro db
  unfold queryIn
  exact post_onRest (fun _ rest => ⟨_, _, rest, rfl⟩) fun _ rest => ⟨_, _, rest, rfl⟩

theorem within_queryPast (visible : Bool) (mode : QueryMode) (q : Q) :
    Within Queried (queryPast E visible mode q) := by
  intro db
  have h := within_queryIn E mode q { db with candidateVisible := visible }
  unfold Post queryPast at *
  cases hrun : queryIn E mode q { db with candidateVisible := visible } with
  | ok rows db' =>
    rw [hrun] at h
    obtain ⟨v, u, r, rfl⟩ := h
    exact ⟨_, u, r, rfl⟩
  | error e db' =>
    rw [hrun] at h
    obtain ⟨v, u, r, rfl⟩ := h
    exact ⟨_, u, r, rfl⟩

theorem within_trial [DecidableEq R] (q : Q) (clock : Clock) :
    Within Queried (trial E q clock) :=
  (within_queryPast E false .trial q).bind fun _ =>
    (within_queryPast E true .trial q).bind fun _ => within_pure _

theorem Sound.find_mem (h : Sound db) {l : LiveExperiment} (hl : l ∈ db.experiments) :
    db.find l.experiment.id = some l := by
  cases hfind : db.find l.experiment.id with
  | none => exact absurd rfl (find_none hfind l hl)
  | some m =>
    obtain ⟨hm, hid⟩ := find_some hfind
    rw [List.inj_on_of_nodup_map h.unique hm hl hid]

open LiveExperiment in
/-- After its query an experiment is put back with the evidence. -/
theorem experimentQuery_evidence [DecidableEq R] (q : Q) (clock : Clock)
    (hfor : (db.experimentFor (E.collectionOf q)).bind db.find = some live) :
    ∃ db', Queried db db' ∧ exec (experimentQuery E q clock) db =
      db'.putBack (run step live (evidence E q clock live db)) := by
  have hunder : Queried db { db with underTest := some live.experiment.id } := ⟨_, _, _, rfl⟩
  unfold exec experimentQuery evidence
  rw [hfor]
  dsimp only
  cases hphase : live.phase with
  | shadow =>
    dsimp only
    have htrial := within_trial E q clock { db with underTest := some live.experiment.id }
    unfold Post at htrial
    cases hrun : trial E q clock { db with underTest := some live.experiment.id } with
    | ok pair db' =>
      rw [hrun] at htrial
      exact ⟨db', trans_of Queried hunder htrial, rfl⟩
    | error e db' =>
      rw [hrun] at htrial
      refine ⟨db', trans_of Queried hunder htrial, ?_⟩
      dsimp only
      unfold recordPair
      cases live.shadow.last with
      | none => rfl
      | some t => rfl
  | canary percent =>
    dsimp only
    have hserved := within_queryPast E (live.route percent).1 .served q
      { db with underTest := some live.experiment.id }
    unfold Post at hserved
    cases hrun : queryPast E (live.route percent).1 .served q
        { db with underTest := some live.experiment.id } with
    | ok rows db' =>
      rw [hrun] at hserved
      refine ⟨db', trans_of Queried hunder hserved, ?_⟩
      dsimp only
      unfold recordServed
      split_ifs <;> rfl
    | error e db' =>
      rw [hrun] at hserved
      refine ⟨db', trans_of Queried hunder hserved, ?_⟩
      dsimp only
      unfold recordServed
      split_ifs <;> rfl
  | _ =>
    dsimp only
    have hanswered := within_queryIn E .normal q { db with underTest := some live.experiment.id }
    unfold Post at hanswered
    cases hrun : queryIn E .normal q { db with underTest := some live.experiment.id } with
    | ok rows db' =>
      rw [hrun] at hanswered
      exact ⟨db', trans_of Queried hunder hanswered, rfl⟩
    | error e db' =>
      rw [hrun] at hanswered
      exact ⟨db', trans_of Queried hunder hanswered, rfl⟩

open LiveExperiment in
/-- Evidence moves no phase. -/
theorem evidence_quiet [DecidableEq R] (q : Q) (clock : Clock) (l : LiveExperiment) :
    (run step l (evidence E q clock live db)).phase = l.phase := by
  unfold evidence
  dsimp only
  cases live.phase with
  | shadow =>
    dsimp only
    cases trial E q clock { db with underTest := some live.experiment.id } with
    | ok => rfl
    | error =>
      dsimp only
      cases live.shadow.last with
      | none => rfl
      | some t => rfl
  | canary percent =>
    dsimp only
    split_ifs <;> rfl
  | _ => rfl

/-- After any call every experiment is one from before it, or a new one, and has gone through what
it heard. -/
structure Follows (hear : ℕ → List LiveExperiment.Event) (db db' : Database σ) : Prop where
  running : ∀ l' ∈ db'.experiments, ∃ l ∈ db.experiments, l.experiment.id = l'.experiment.id ∧
    l' = run LiveExperiment.step l (hear l'.experiment.id)
  ended : ∀ l' ∈ db'.finished, l' ∈ db.finished ∨ ∃ l ∈ db.experiments,
    l.experiment.id = l'.experiment.id ∧ l' = run LiveExperiment.step l (hear l'.experiment.id)
  next : db'.nextExperimentId = db.nextExperimentId

theorem Moves.follows {hear : ℕ → List LiveExperiment.Event} (id : ℕ)
    (h : Moves id (hear id) db db') (hother : ∀ i, i ≠ id → hear i = []) : Follows hear db db' := by
  refine ⟨?_, ?_, h.next⟩
  · intro l hl
    rcases h.running l hl with ⟨hmem, hne⟩ | ⟨m, hm, rfl⟩
    · exact ⟨l, hmem, rfl, by rw [hother _ hne]; rfl⟩
    · obtain ⟨hmem, rfl⟩ := find_some hm
      have hid := (same_run m (hear m.experiment.id)).id
      exact ⟨m, hmem, hid.symm, by rw [hid]⟩
  · intro l hl
    rcases h.ended l hl with hmem | ⟨m, hm, rfl⟩
    · exact .inl hmem
    · obtain ⟨hmem, rfl⟩ := find_some hm
      have hid := (same_run m (hear m.experiment.id)).id
      exact .inr ⟨m, hmem, hid.symm, by rw [hid]⟩

theorem Queried.sound (h : Sound db) (hq : Queried db db') : Sound db' := by
  obtain ⟨v, u, r, rfl⟩ := hq
  exact ⟨h.distinct, h.bounded, h.quiet, h.apart, h.named, h.enables, h.going, h.ended, h.standing⟩

theorem heard_query [DecidableEq R] (q : Q) (clock : Clock) (id : ℕ) :
    heard E id (.query q clock) db =
      match (db.experimentFor (E.collectionOf q)).bind db.find with
      | some live => if live.experiment.id = id then evidence E q clock live db else []
      | none => [] := rfl

theorem experimentQuery_follows (h : Sound db) [DecidableEq R] (q : Q) (clock : Clock) :
    Sound (exec (experimentQuery E q clock) db) ∧
      Follows (fun id => heard E id (.query q clock) db) db
        (exec (experimentQuery E q clock) db) := by
  cases hfor : (db.experimentFor (E.collectionOf q)).bind db.find with
  | none =>
    have hqueried : Queried db (exec (experimentQuery E q clock) db) := by
      have hwithin := (within_queryIn E .normal q).exec db
      unfold exec experimentQuery at *
      rw [hfor]
      exact hwithin
    refine ⟨hqueried.sound h, ?_⟩
    obtain ⟨v, u, r, hdb⟩ := hqueried
    rw [hdb]
    simp only [heard_query, hfor]
    exact ⟨fun l hl => ⟨l, hl, rfl, rfl⟩, fun l hl => .inl hl, rfl⟩
  | some live =>
    obtain ⟨i, -, hi⟩ := Option.bind_eq_some_iff.mp hfor
    obtain ⟨hlive, rfl⟩ := find_some hi
    obtain ⟨db₁, ⟨v, u, r, rfl⟩, hexec⟩ := experimentQuery_evidence E q clock hfor
    have hamid : Amid live (run LiveExperiment.step live (evidence E q clock live db)) db
        (exec (experimentQuery E q clock) db) := by
      have hsame := same_run live (evidence E q clock live db)
      rw [hexec]
      refine ⟨⟨rfl, h.quiet, fun _ hid _ => hid, fun _ hp _ => hp⟩, ?_, rfl, hsame⟩
      unfold Database.putBack Database.update
      rw [hsame.id]
    have hphase := @evidence_quiet _ _ _ _ E db live _ q clock live
    obtain ⟨hsound, hmoves⟩ := h.settles hi hamid (hphase ▸ h.going live hlive) (by
      rw [hphase]
      intro hp
      have hstanding := h.standing live hlive hp
      unfold Standing
      rw [hamid.same.id, hamid.same.decision, hexec]
      exact hstanding)
    refine ⟨hsound, ?_⟩
    have hhear : heard E live.experiment.id (.query q clock) db = evidence E q clock live db := by
      rw [heard_query, hfor]
      exact if_pos rfl
    apply Moves.follows live.experiment.id
    · rw [hhear]
      exact hmoves
    · intro i hne
      rw [heard_query, hfor]
      exact if_neg hne.symm

/-- A new experiment, behind the others and apart from them. -/
structure Begun (d : Decision) (g : Guardrails) (collection : String) (db db' : Database σ) :
    Prop where
  enables : d.action = .enable
  named : ∃ names, collection = candidateCollection names d.scope
  apart : ∀ l ∈ db.experiments, scopesOverlap l.collection collection = false
  state : ∃ rest, db' = { db with
    nextExperimentId := db.nextExperimentId + 1
    experiments := db.experiments ++ [.new db.nextExperimentId d collection g]
    rest := rest }

theorem beginExperiment_post (d : Decision) (g : Guardrails) (db : Database σ) :
    Post (beginExperiment E d g) db (fun _ db' => ∃ collection, Begun d g collection db db')
      fun _ db' => ∃ rest, db' = { db with rest := rest } := by
  unfold beginExperiment
  by_cases ha : d.action = .enable
  · rw [if_neg (not_not.mpr ha), post_bind]
    refine post_onRest (fun inputs rest => ?_) fun _ rest => ⟨rest, rfl⟩
    cases E.registry.get d.optimization with
    | none => exact ⟨rest, rfl⟩
    | some opt =>
      dsimp only
      split_ifs
      · exact ⟨rest, rfl⟩
      · cases (opt.planEnable inputs.2 d.scope d.params).apply.find? fun a => !a.isShadowable with
        | some bad => exact ⟨rest, rfl⟩
        | none =>
          dsimp only
          rw [post_bind, post_get]
          dsimp only
          cases hclash : db.experiments.find? fun l => scopesOverlap l.collection
              (candidateCollection (E.collectionNames rest) d.scope) with
          | some clash => exact ⟨rest, rfl⟩
          | none =>
            refine ⟨candidateCollection (E.collectionNames rest) d.scope, ha, ⟨_, rfl⟩, ?_, rest, rfl⟩
            intro l hl
            exact Bool.eq_false_iff.mpr (List.find?_eq_none.mp hclash l hl)
  · rw [if_pos ha]
    exact ⟨db.rest, rfl⟩

theorem overlap_comm (a b : String) : scopesOverlap a b = scopesOverlap b a := by
  unfold scopesOverlap
  rw [Bool.or_comm a.isEmpty, decide_eq_decide.mpr eq_comm]

theorem Begun.sound {d : Decision} {g : Guardrails} {collection : String} (h : Sound db)
    (hb : Begun d g collection db db') : Sound db' := by
  obtain ⟨rest, rfl⟩ := hb.state
  have hmem : ∀ l ∈ db.experiments ++ [LiveExperiment.new db.nextExperimentId d collection g],
      l ∈ db.experiments ∨ l = .new db.nextExperimentId d collection g := by
    intro l hl
    rw [List.mem_append, List.mem_singleton] at hl
    exact hl
  have hfresh : ∀ l ∈ db.experiments ++ db.finished,
      l.experiment.id ≠ db.nextExperimentId := fun l hl => Nat.ne_of_lt (h.bounded l hl)
  constructor
  · dsimp only
    rw [List.append_assoc, List.singleton_append, List.map_append, List.map_cons,
      List.nodup_middle, ← List.map_append, List.nodup_cons]
    refine ⟨fun hid => ?_, h.distinct⟩
    obtain ⟨l, hl, heq⟩ := List.mem_map.mp hid
    exact hfresh l hl heq
  · intro l hl
    rw [List.append_assoc, List.singleton_append] at hl
    rcases List.mem_append.mp hl with hl | hl
    · exact Nat.lt_succ_of_lt (h.bounded l (List.mem_append_left _ hl))
    · rcases List.mem_cons.mp hl with rfl | hl
      · exact Nat.lt_succ_self _
      · exact Nat.lt_succ_of_lt (h.bounded l (List.mem_append_right _ hl))
  · exact h.quiet
  · intro l hl m hm hne
    rcases hmem l hl with hl | rfl
    · rcases hmem m hm with hm | rfl
      · exact h.apart l hl m hm hne
      · exact hb.apart l hl
    · rcases hmem m hm with hm | rfl
      · rw [overlap_comm]
        exact hb.apart m hm
      · exact absurd rfl hne
  · intro l hl
    rcases hmem l hl with hl | rfl
    · exact h.named l hl
    · exact hb.named
  · intro l hl
    rcases hmem l hl with hl | rfl
    · exact h.enables l hl
    · exact hb.enables
  · intro l hl
    rcases hmem l hl with hl | rfl
    · exact h.going l hl
    · rfl
  · exact h.ended
  · intro l hl hp
    rcases hmem l hl with hl | rfl
    · exact h.standing l hl hp
    · exact absurd rfl hp

/-! ## Runs -/

/-- An experiment as it begins. -/
def Begins (l : LiveExperiment) : Prop := ∃ id d collection g, l = .new id d collection g

/-- What a call does to each experiment. -/
structure Carried [DecidableEq R] (c : Call Q σ) (db db' : Database σ) : Prop where
  sound : Sound db'
  each : ∀ l' ∈ db'.experiments ++ db'.finished,
    (∃ l ∈ db.experiments ++ db.finished, l.experiment.id = l'.experiment.id ∧
      l' = run LiveExperiment.step l (heard E l'.experiment.id c db)) ∨
    (Begins l' ∧ db.nextExperimentId ≤ l'.experiment.id)
  next : db.nextExperimentId ≤ db'.nextExperimentId

/-- What does not run hears nothing. -/
theorem heard_none [DecidableEq R] (h : Sound db) {id : ℕ} (hnone : db.find id = none)
    (c : Call Q σ) : heard E id c db = [] := by
  cases c with
  | begin d g => rfl
  | meanwhile f => rfl
  | advance i =>
    unfold heard
    rw [hnone]
  | abort i why =>
    unfold heard
    rw [hnone]
    exact if_neg fun hne => by cases hne.2
  | query q clock =>
    rw [heard_query]
    cases hfor : (db.experimentFor (E.collectionOf q)).bind db.find with
    | none => rfl
    | some live =>
      obtain ⟨i, -, hi⟩ := Option.bind_eq_some_iff.mp hfor
      refine if_neg fun hid => ?_
      rw [← hid, h.find_mem (find_some hi).1] at hnone
      cases hnone

theorem Sound.find_ended (h : Sound db) {l : LiveExperiment} (hl : l ∈ db.finished) :
    db.find l.experiment.id = none := by
  cases hfind : db.find l.experiment.id with
  | none => rfl
  | some m =>
    obtain ⟨hm, hid⟩ := find_some hfind
    have hdistinct := h.distinct
    rw [List.map_append, List.nodup_append] at hdistinct
    exact absurd hid (hdistinct.2.2 _ (List.mem_map_of_mem hm) _ (List.mem_map_of_mem hl))

theorem Sound.find_fresh (h : Sound db) {id : ℕ} (hid : db.nextExperimentId ≤ id) :
    db.find id = none := by
  cases hfind : db.find id with
  | none => rfl
  | some m =>
    obtain ⟨hm, rfl⟩ := find_some hfind
    exact absurd (h.bounded m (List.mem_append_left _ hm)) (Nat.not_lt.mpr hid)

theorem Follows.carried [DecidableEq R] {c : Call Q σ} (h : Sound db) (hs : Sound db')
    (hf : Follows (fun id => heard E id c db) db db') : Carried E c db db' := by
  refine ⟨hs, fun l hl => .inl ?_, hf.next.ge⟩
  rcases List.mem_append.mp hl with hl | hl
  · obtain ⟨m, hm, hid, heq⟩ := hf.running l hl
    exact ⟨m, List.mem_append_left _ hm, hid, heq⟩
  · rcases hf.ended l hl with hmem | ⟨m, hm, hid, heq⟩
    · refine ⟨l, List.mem_append_right _ hmem, rfl, ?_⟩
      rw [heard_none E h (h.find_ended hmem)]
      rfl
    · exact ⟨m, List.mem_append_left _ hm, hid, heq⟩

theorem carried_still [DecidableEq R] (h : Sound db) (c : Call Q σ) (hheard : ∀ id,
    heard E id c db = []) (rest : σ) : Carried E c db { db with rest := rest } := by
  refine ⟨⟨h.distinct, h.bounded, h.quiet, h.apart, h.named, h.enables, h.going, h.ended,
    h.standing⟩, fun l hl => .inl ⟨l, hl, rfl, ?_⟩, Nat.le_refl _⟩
  rw [hheard]
  rfl

theorem Begun.carried [DecidableEq R] {d : Decision} {g : Guardrails} {collection : String}
    (h : Sound db) (hb : Begun d g collection db db') :
    Carried E (.begin d g : Call Q σ) db db' := by
  have hsound := hb.sound h
  obtain ⟨rest, rfl⟩ := hb.state
  refine ⟨hsound, fun l hl => ?_, Nat.le_succ _⟩
  rw [List.append_assoc, List.singleton_append] at hl
  rcases List.mem_append.mp hl with hl | hl
  · exact .inl ⟨l, List.mem_append_left _ hl, rfl, rfl⟩
  · rcases List.mem_cons.mp hl with rfl | hl
    · exact .inr ⟨⟨_, d, collection, g, rfl⟩, Nat.le_refl _⟩
    · exact .inl ⟨l, List.mem_append_right _ hl, rfl, rfl⟩

theorem call_carried [DecidableEq R] (h : Sound db) (c : Call Q σ) (hc : Trialable E c db) :
    Carried E c db (call E c db) := by
  cases c with
  | begin d g =>
    refine Post.exec (I := Carried E (.begin d g) db)
      ((beginExperiment_post E d g db).mono (fun _ db' hb => ?_) fun _ db' hrest => ?_)
    · obtain ⟨collection, hb⟩ := hb
      exact hb.carried E h
    · obtain ⟨rest, rfl⟩ := hrest
      exact carried_still E h _ (fun _ => rfl) rest
  | query q clock =>
    obtain ⟨hs, hf⟩ := experimentQuery_follows E h q clock
    exact hf.carried E h hs
  | advance id =>
    obtain ⟨hs, hm⟩ := Post.exec (I := fun db' => Sound db' ∧
      Moves id (heard E id (.advance id) db) db db') (advanceOne_moves E h hc)
    apply Follows.carried E h hs
    apply Moves.follows id hm
    intro i hne
    unfold heard
    cases db.find i with
    | none => rfl
    | some live => exact if_neg hne.symm
  | abort id why =>
    obtain ⟨hs, hm⟩ := Post.exec (I := fun db' => Sound db' ∧
      Moves id (heard E id (.abort id why) db) db db') (abort_moves E h id why)
    apply Follows.carried E h hs
    apply Moves.follows id hm
    intro i hne
    exact if_neg fun hi => hne hi.1.symm
  | meanwhile f => exact carried_still E h _ (fun _ => rfl) _

/-- Along a run every experiment goes through its log. -/
theorem run_carried [DecidableEq R] (calls : List (Call Q σ)) (h : Sound db)
    (hg : Guarded (call E) (Trialable E) db calls) :
    Sound (run (call E) db calls) ∧
      ∀ l' ∈ (run (call E) db calls).experiments ++ (run (call E) db calls).finished,
        ∃ l, (l ∈ db.experiments ++ db.finished ∨
            (Begins l ∧ db.nextExperimentId ≤ l.experiment.id)) ∧
          l.experiment.id = l'.experiment.id ∧
          l' = run LiveExperiment.step l (log E l'.experiment.id db calls) := by
  induction calls generalizing db with
  | nil => exact ⟨h, fun l hl => ⟨l, .inl hl, rfl, rfl⟩⟩
  | cons c calls ih =>
    have hcarried := call_carried E h c hg.1
    obtain ⟨hs, hrest⟩ := ih hcarried.sound hg.2
    refine ⟨hs, fun l' hl' => ?_⟩
    obtain ⟨l, hl, hid, heq⟩ := hrest l' hl'
    simp only [log, run_append]
    rw [← hid] at heq ⊢
    -- An experiment that begins later has heard nothing of this call.
    have hnew : Begins l → db.nextExperimentId ≤ l.experiment.id →
        ∃ m, (m ∈ db.experiments ++ db.finished ∨
            (Begins m ∧ db.nextExperimentId ≤ m.experiment.id)) ∧
          m.experiment.id = l.experiment.id ∧ l' = run LiveExperiment.step
            (run LiveExperiment.step m (heard E l.experiment.id c db))
            (log E l.experiment.id (call E c db) calls) := by
      intro hbegins hnext
      refine ⟨l, .inr ⟨hbegins, hnext⟩, rfl, ?_⟩
      rw [heard_none E h (h.find_fresh hnext)]
      exact heq
    rcases hl with hl | ⟨hbegins, hnext⟩
    · rcases hcarried.each l hl with ⟨m, hm, hmid, hmeq⟩ | ⟨hbegins, hnext⟩
      · exact ⟨m, .inl hm, hmid, by rw [← hmeq]; exact heq⟩
      · exact hnew hbegins hnext
    · exact hnew hbegins (Nat.le_trans hcarried.next hnext)

/-- One call on all of them is a run of calls on each, up to the first that fails. -/
theorem advanceEach_run [DecidableEq R] (ids : List ℕ) (db : Database σ) :
    ∃ n, exec (advanceEach E ids) db =
      run (call E) db ((ids.take n).map (.advance : ℕ → Call Q σ)) := by
  induction ids generalizing db with
  | nil => exact ⟨0, rfl⟩
  | cons id ids ih =>
    unfold advanceEach
    cases hone : advanceOne E id db with
    | error e db' =>
      refine ⟨1, ?_⟩
      rw [exec_bind_error hone]
      exact (exec_of_error hone).symm
    | ok phase db' =>
      obtain ⟨n, hn⟩ := ih db'
      refine ⟨n + 1, ?_⟩
      rw [exec_bind_ok hone]
      change _ = run (call E) (exec (advanceOne E id) db) _
      rw [exec_of_ok hone, ← hn]
      cases phase with
      | none => rfl
      | some phase => exact exec_bind_pure _ _ _

/-- What holds of every experiment after a run. -/
structure Ramped [DecidableEq R] (start : Database σ) (calls : List (Call Q σ))
    (db : Database σ) : Prop where
  follows : ∀ l ∈ db.experiments ++ db.finished, ∃ d collection g,
    l = run LiveExperiment.step (.new l.experiment.id d collection g)
      (log E l.experiment.id start calls)
  /-- Whatever is past its first phase was built, and is masked. -/
  standing : ∀ l ∈ db.experiments, l.phase ≠ .proposed → Standing db l
  going : ∀ l ∈ db.experiments, l.phase.isTerminal = false
  ended : ∀ l ∈ db.finished, l.phase.isTerminal = true

/-- The law of the ramp holds of whatever an experiment hears, and in every run whose trials do
not fail every experiment is what it heard, built and masked once it is past its first phase. -/
theorem full_ramp [DecidableEq R] (controller : OptimizationController) (s : σ)
    (calls : List (Call Q σ))
    (h : Guarded (call E) (Trialable E) (.opened controller s) calls) :
    (∀ id d collection g, LiveExperiment.RampLaw (.new id d collection g)) ∧
      Ramped E (.opened controller s) calls (run (call E) (.opened controller s) calls) := by
  obtain ⟨hs, hlog⟩ := run_carried E calls (sound_opened controller s) h
  refine ⟨LiveExperiment.ramp_law, ⟨fun l hl => ?_, hs.standing, hs.going, hs.ended⟩⟩
  obtain ⟨m, hm, hid, heq⟩ := hlog l hl
  rcases hm with hm | ⟨⟨id, d, collection, g, rfl⟩, -⟩
  · cases hm
  · refine ⟨d, collection, g, ?_⟩
    obtain rfl : id = l.experiment.id := hid
    exact heq

/-! ## Trials that fail, and that do not -/

/-- Where gathering the inputs and every action succeed, every trial does. -/
theorem trialable_of_total {E : Workings Ctx σ Q R}
    (hinputs : ∀ s, Returns E.optInputs s fun _ _ => True)
    (hactions : ∀ a s, Returns (E.applyAction a) s fun _ _ => True) (c : Call Q σ)
    (db : Database σ) : Trialable E c db := by
  have hsink : (actionSink E).Total := by
    intro a db
    change Post (applyAction E a) db _ _
    unfold applyAction
    rw [post_bind, post_modify]
    unfold Post onRest
    obtain ⟨_, rest, hrun, -⟩ := (hactions a _).exists
    rw [hrun]
    trivial
  have hdecisions : ∀ d inputs (db : Database σ),
      Returns (runDecisions E [d] inputs) db fun _ _ => True := by
    intro d inputs db
    obtain ⟨report, s', hrun, -⟩ := (@apply_run _ _ E.registry inputs.1 inputs.2
      _ hsink [d] ⟨[], []⟩ ⟨db.controller, { db with controller := .new }⟩).exists
    unfold Returns Post runDecisions
    rw [if_neg (by simp), hrun]
    trivial
  cases c with
  | advance id =>
    intro live _ _
    unfold Returns runTrial
    rw [post_bind, post_modify, post_bind]
    obtain ⟨inputs, rest, hrun, -⟩ := (hinputs db.rest).exists
    unfold Post onRest
    dsimp only [Database.update]
    rw [hrun]
    change Post (unrecorded (runDecisions E [_] inputs)) _ _ _
    rw [post_unrecorded]
    exact hdecisions _ _ _
  | _ => trivial

/-- A database of nothing but an index on users by country, which cannot be read for it, or can. -/
def oneIndex (readable : Bool) : Workings Unit (List Action) Unit Unit where
  registry := (Registry.new.register oneField).getD .new
  collectionNames _ := ["users"]
  derivedMemoryBytes s := s.length
  optInputs := pure (⟨.adaptive, ⟨.strict, .strict⟩, ⟨none⟩⟩, ())
  applyAction action :=
    if readable then modify (· ++ [action]) else throw (.corruption "users cannot be read")
  canApply _ s := (true, s)
  collectionOf _ := "users"
  queryIn _ _ _ _ := pure ()

def indexUsers : Call Unit (List Action) :=
  .begin ⟨"auto_index", "users.country", .enable, .new, "filtered"⟩ .default

/-- The building fails, and the next advance goes on to shadow. -/
theorem unbuilt_shadow : ∃ l ∈ (run (call (oneIndex false)) (.opened .new [])
      [indexUsers, .advance 1, .advance 1]).experiments, l.phase = .shadow ∧
    ¬ Standing (run (call (oneIndex false)) (.opened .new [])
      [indexUsers, .advance 1, .advance 1]) l := by
  have hphases : (run (call (oneIndex false)) (.opened .new [])
      [indexUsers, .advance 1, .advance 1]).experiments.map (·.phase) = [.shadow] := by
    decide +kernel
  have happlied : (run (call (oneIndex false)) (.opened .new [])
      [indexUsers, .advance 1, .advance 1]).controller.applied = [] := by decide +kernel
  have hmem : Phase.shadow ∈ (run (call (oneIndex false)) (.opened .new [])
      [indexUsers, .advance 1, .advance 1]).experiments.map (·.phase) := by
    rw [hphases]
    exact List.mem_cons_self
  obtain ⟨l, hl, hphase⟩ := List.mem_map.mp hmem
  refine ⟨l, hl, hphase, fun hstanding => ?_⟩
  obtain ⟨⟨plan, hplan⟩, -⟩ := hstanding
  rw [happlied] at hplan
  cases hplan

theorem built_shadow : (run (call (oneIndex true)) (.opened .new [])
      [indexUsers, .advance 1, .advance 1]).experiments.map (·.phase) = [.shadow] ∧
    ∀ l ∈ (run (call (oneIndex true)) (.opened .new [])
      [indexUsers, .advance 1, .advance 1]).experiments, l.phase ≠ .proposed →
    Standing (run (call (oneIndex true)) (.opened .new [])
      [indexUsers, .advance 1, .advance 1]) l := by
  refine ⟨by decide +kernel,
    (full_ramp (oneIndex true) .new [] [indexUsers, .advance 1, .advance 1] ?_).2.standing⟩
  have htrial := trialable_of_total (E := oneIndex true) (fun _ => trivial) fun _ _ => trivial
  exact ⟨htrial _ _, htrial _ _, htrial _ _, trivial⟩

end Adabt.Engine.Proving
