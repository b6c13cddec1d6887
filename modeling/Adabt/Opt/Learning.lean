import Adabt.Opt.Proposals

/-! # What the cost model learns from

A measurement is queued when an enable is proposed, and the controller decides later
whether it happens. Where every enable that is proposed on usable metrics is carried out,
each observation is of one that was. -/

set_option autoImplicit false

namespace Adabt.Opt
open Adabt.Core Adabt.Library Adabt.Telemetry

/-! ## Cycles -/

/-- The decisions of a batch that are decided, with what the controller makes of them. A sink
that fails ends the batch. -/
def verdicts {Ctx σ : Type} (env : ApplyEnv Ctx) (P : ActionSink σ) :
    List Decision → Steered σ → List (Decision × Verdict)
  | [], _ => []
  | d :: ds, s =>
    match applyDecision env P d s with
    | .ok verdict s' => (d, verdict) :: verdicts env P ds s'
    | .error _ _ => []

/-- They are what the report of the batch is made of. -/
theorem apply_eq_ok {Ctx σ : Type} {env : ApplyEnv Ctx} {P : ActionSink σ} {ds : List Decision}
    {report report' : ApplyReport} {s s' : Steered σ}
    (h : apply env P report ds s = .ok report' s') :
    report' = (verdicts env P ds s).foldl (fun r x => r.note x.1.label x.2) report ∧
      (verdicts env P ds s).map (·.1) = ds := by
  induction ds generalizing report s with
  | nil =>
    cases h
    exact ⟨rfl, rfl⟩
  | cons d ds ih =>
    rw [verdicts]
    cases hd : applyDecision env P d s with
    | error e s₁ =>
      have herr : apply env P report (d :: ds) s = .error e s₁ := by
        rw [apply]
        change EStateM.bind _ _ s = _
        rw [EStateM.bind, hd]
      cases herr.symm.trans h
    | ok verdict s₁ =>
      have hrest : apply env P report (d :: ds) s = apply env P (report.note d.label verdict) ds s₁ := by
        rw [apply]
        change EStateM.bind _ _ s = _
        rw [EStateM.bind, hd]
      obtain ⟨hreport, hmap⟩ := ih (hrest.symm.trans h)
      exact ⟨hreport, by rw [List.map_cons, hmap]⟩

/-- A cycle of the driver, and the controller and the sink its decisions meet. -/
structure Round (σ : Type) where
  input : DriverInput
  /-- Kept for an experiment, not applied. -/
  held : Decision → Bool
  sink : ActionSink σ
  steered : Steered σ
  reads : input.current = steered.controller.config

variable {σ : Type}

namespace Round

def metrics (r : Round σ) : Metrics := metricsFrom r.input.telemetry r.input.ctx.currentBytes

def proposed (r : Round σ) (d : AdaptiveDriver) : List Decision :=
  (d.decide r.input).1.filter fun x => x.action = .enable

def outcome (r : Round σ) (d : AdaptiveDriver) : List (Decision × Verdict) :=
  verdicts r.input.applyEnv r.sink ((d.decide r.input).1.filter fun x => !r.held x) r.steered

/-- The enables that are carried out. -/
def enabled (r : Round σ) (d : AdaptiveDriver) : List Decision :=
  ((r.outcome d).filter fun x => x.1.action = .enable && x.2 = .applied).map (·.1)

/-- The measurement due of a decision. -/
def measurement (r : Round σ) (d : AdaptiveDriver) (x : Decision) : Pending :=
  ⟨x.optimization, r.metrics, d.cycles + 1⟩

end Round

def after (start : AdaptiveDriver) (rounds : List (Round σ)) : AdaptiveDriver :=
  rounds.foldl (fun d r => tick r.input d) start

/-- The measurements due of the enables that were carried out. -/
def measurementsDue : AdaptiveDriver → List (Round σ) → List Pending
  | _, [] => []
  | d, r :: rs => (r.enabled d).map (r.measurement d) ++ measurementsDue (tick r.input d) rs

/-- Every enable that is proposed on metrics of any use is carried out. -/
def Heeded : AdaptiveDriver → List (Round σ) → Prop
  | _, [] => True
  | d, r :: rs => (r.metrics.isUsable = true → r.proposed d = r.enabled d) ∧ Heeded (tick r.input d) rs

/-! ## What a cycle learns and queues -/

namespace AdaptiveDriver

variable {d : AdaptiveDriver} {input : DriverInput}

def isDue (d : AdaptiveDriver) (p : Pending) : Bool := p.appliedAt + observeAfterCycles ≤ d.cycles + 1

theorem note_keeps (now : Metrics) (d : AdaptiveDriver) (x : Decision) :
    (note now d x).costs = d.costs ∧
      (note now d x).pending = d.pending ++
        if x.action = .enable then [⟨x.optimization, now, d.cycles⟩] else [] := by
  rw [note]
  cases x.action with
  | enable => exact ⟨rfl, rfl⟩
  | disable => cases evidenceBased x.trigger <;> exact ⟨rfl, (List.append_nil _).symm⟩
  | retune => exact ⟨rfl, (List.append_nil _).symm⟩

theorem notes_keep (now : Metrics) (xs : List Decision) (d : AdaptiveDriver) :
    (xs.foldl (note now) d).costs = d.costs ∧
      (xs.foldl (note now) d).pending = d.pending ++
        (xs.filter fun x => x.action = .enable).map fun x => ⟨x.optimization, now, d.cycles⟩ := by
  induction xs generalizing d with
  | nil => exact ⟨rfl, (List.append_nil _).symm⟩
  | cons x xs ih =>
    obtain ⟨hcosts, hpending⟩ := ih (note now d x)
    obtain ⟨hcosts', hpending'⟩ := note_keeps now d x
    rw [List.foldl_cons, hcosts, hpending, hpending', hcosts', cycles_note, List.filter_cons]
    refine ⟨rfl, ?_⟩
    by_cases hx : x.action = .enable
    · rw [if_pos hx, if_pos (decide_eq_true hx), List.append_assoc]
      rfl
    · rw [if_neg hx, if_neg (by simpa using hx), List.append_nil]

theorem settle_keeps_costs (d : AdaptiveDriver) (input : DriverInput) (chosen : List Decision) :
    (d.settle input chosen).costs = d.costs ∧ (d.settle input chosen).pending = d.pending := by
  rw [settle]
  split_ifs <;> exact ⟨rfl, rfl⟩

/-- What is due is learned, and what is proposed is queued. -/
theorem decide_learns (d : AdaptiveDriver) (input : DriverInput) :
    (d.decide input).2.costs = (d.pending.filter d.isDue).foldl
        (learnFrom (metricsFrom input.telemetry input.ctx.currentBytes)) d.costs ∧
      (d.decide input).2.pending = (d.pending.filter fun p => !d.isDue p) ++
        ((d.decide input).1.filter fun x => x.action = .enable).map fun x =>
          ⟨x.optimization, metricsFrom input.telemetry input.ctx.currentBytes, d.cycles + 1⟩ := by
  rw [decide]
  dsimp only
  split_ifs
  · exact ⟨rfl, (List.append_nil _).symm⟩
  · obtain ⟨hcosts, hpending⟩ := notes_keep (metricsFrom input.telemetry input.ctx.currentBytes)
      ((d.begun input).choose input) ((d.begun input).settle input ((d.begun input).choose input))
    obtain ⟨hcosts', hpending'⟩ := settle_keeps_costs (d.begun input) input ((d.begun input).choose input)
    obtain ⟨hcycles, -⟩ := settle_keeps (d.begun input) input ((d.begun input).choose input)
    dsimp only
    rw [hcosts, hpending, hcosts', hpending', hcycles]
    exact ⟨rfl, rfl⟩

end AdaptiveDriver

/-! ## The ledger -/

open AdaptiveDriver

/-- The observations that entries of measurement and later metrics stand for. -/
def seen (name : String) (entries : List (Pending × Metrics)) : List Observation :=
  (entries.filter fun e => e.1.optimization = name).filterMap fun e =>
    Observation.between e.1.baseline e.2

theorem seen_append (name : String) (es fs : List (Pending × Metrics)) :
    seen name (es ++ fs) = seen name es ++ seen name fs := by
  rw [seen, List.filter_append, List.filterMap_append]
  rfl

theorem observations_record (m : CostModel) (o name : String) (obs : Observation) :
    (m.record o obs).observations name =
      m.observations name ++ if o = name then [obs] else [] := by
  rw [CostModel.observations, CostModel.record, Table.get_alter, CostModel.observations]
  by_cases hname : o = name
  · rw [if_pos hname.symm, if_pos hname, hname]
    rfl
  · rw [if_neg (Ne.symm hname), if_neg hname, List.append_nil]

theorem observations_learned (now : Metrics) (ps : List Pending) (m : CostModel) (name : String) :
    (ps.foldl (learnFrom now) m).observations name =
      m.observations name ++ seen name (ps.map fun p => (p, now)) := by
  induction ps generalizing m with
  | nil => exact (List.append_nil _).symm
  | cons p ps ih =>
    have hone : (learnFrom now m p).observations name =
        m.observations name ++ seen name [(p, now)] := by
      rw [learnFrom]
      cases hobs : Observation.between p.baseline now with
      | none => by_cases hname : p.optimization = name <;> simp [seen, hname, hobs]
      | some obs =>
        dsimp only
        rw [observations_record]
        by_cases hname : p.optimization = name <;> simp [seen, hname, hobs]
    rw [List.foldl_cons, ih, hone, List.append_assoc, ← seen_append]
    rfl

/-- Nothing is seen of what was queued on metrics of no use. -/
theorem seen_usable (now : Metrics) (ps : List Pending) (name : String) :
    seen name ((ps.filter fun p => p.baseline.isUsable).map fun p => (p, now)) =
      seen name (ps.map fun p => (p, now)) := by
  induction ps with
  | nil => rfl
  | cons p ps ih =>
    have hcons : ∀ es, seen name ((p, now) :: es) = seen name [(p, now)] ++ seen name es :=
      fun es => seen_append name [(p, now)] es
    rw [List.filter_cons, List.map_cons, hcons]
    by_cases husable : p.baseline.isUsable = true
    · rw [if_pos husable, List.map_cons, hcons, ih]
    · have hnone : seen name [(p, now)] = [] := by
        have hbetween : Observation.between p.baseline now = none := by
          rw [Observation.between, Bool.eq_false_iff.mpr husable]
          rfl
        by_cases hname : p.optimization = name <;> simp [seen, hname, hbetween]
      rw [if_neg husable, ih, hnone, List.nil_append]

/-- The entries made, and the measurements still queued, are of different enables that were
carried out. -/
structure Ledger (base : CostModel) (d : AdaptiveDriver) (done : List Pending)
    (entries : List (Pending × Metrics)) : Prop where
  carriedOut : (entries.map Prod.fst ++ d.pending.filter fun p => p.baseline.isUsable).Subperm done
  observed : ∀ name, d.costs.observations name = base.observations name ++ seen name entries

/-- What a cycle does to the ledger. -/
theorem Ledger.tick {base : CostModel} {d : AdaptiveDriver} {done : List Pending}
    {entries : List (Pending × Metrics)} (h : Ledger base d done entries) (r : Round σ)
    (hheeded : r.metrics.isUsable = true → r.proposed d = r.enabled d) :
    Ledger base (tick r.input d) (done ++ (r.enabled d).map (r.measurement d))
      (entries ++ ((d.pending.filter d.isDue).filter fun p => p.baseline.isUsable).map
        fun p => (p, r.metrics)) := by
  obtain ⟨hcosts, hpending⟩ := decide_learns d r.input
  have hqueued : List.Subperm (((r.proposed d).map (r.measurement d)).filter fun p => p.baseline.isUsable)
      ((r.enabled d).map (r.measurement d)) := by
    by_cases husable : r.metrics.isUsable = true
    · rw [hheeded husable]
      exact List.filter_sublist.subperm
    · have hnone : ((r.proposed d).filter fun x => (r.measurement d x).baseline.isUsable) = [] :=
        List.filter_eq_nil_iff.mpr fun x _ => husable
      rw [List.filter_map]
      change ((((r.proposed d).filter fun x => (r.measurement d x).baseline.isUsable)).map _).Subperm _
      rw [hnone]
      exact List.nil_subperm
  have hsplit : List.Perm (((d.pending.filter d.isDue).filter fun p => p.baseline.isUsable) ++
      (d.pending.filter fun p => !d.isDue p).filter fun p => p.baseline.isUsable)
        (d.pending.filter fun p => p.baseline.isUsable) := by
    rw [← List.filter_append]
    exact (List.filter_append_perm d.isDue d.pending).filter _
  constructor
  · have hfst : (((d.pending.filter d.isDue).filter fun p => p.baseline.isUsable).map
        fun p => (p, r.metrics)).map Prod.fst =
          (d.pending.filter d.isDue).filter fun p => p.baseline.isUsable := by
      rw [List.map_map]
      exact List.map_id _
    rw [List.map_append, hfst, Opt.tick, hpending, List.filter_append]
    refine List.Subperm.trans (List.Perm.subperm ?_) (h.carriedOut.append hqueued)
    rw [List.append_assoc, List.append_assoc]
    refine List.Perm.append_left _ ?_
    rw [← List.append_assoc]
    exact hsplit.append_right _
  · intro name
    rw [Opt.tick, hcosts, observations_learned, h.observed, List.append_assoc, seen_append, seen_usable]
    rfl

theorem Ledger.after {base : CostModel} {d : AdaptiveDriver} {done : List Pending}
    {entries : List (Pending × Metrics)} (h : Ledger base d done entries) (rounds : List (Round σ))
    (hheeded : Heeded d rounds) :
    ∃ entries', Ledger base (Opt.after d rounds) (done ++ Opt.measurementsDue d rounds) entries' := by
  induction rounds generalizing d done entries with
  | nil => exact ⟨entries, (List.append_nil done).symm ▸ h⟩
  | cons r rs ih =>
    obtain ⟨entries', h'⟩ := ih (h.tick r hheeded.1) hheeded.2
    rw [List.append_assoc] at h'
    exact ⟨entries', h'⟩

/-- Each observation of a run is of an enable that was carried out, measured from the cycle it was
proposed in, and no two are of the same. -/
def Attributed (start : AdaptiveDriver) (rounds : List (Round σ)) : Prop :=
  ∃ entries : List (Pending × Metrics), (entries.map Prod.fst).Subperm (measurementsDue start rounds) ∧
    ∀ name, (after start rounds).costs.observations name =
      start.costs.observations name ++ seen name entries

/-- It is so where every enable that is proposed on metrics of use is carried out. -/
theorem learns_from_carried_out (costs : CostModel) (rounds : List (Round σ))
    (h : Heeded (.withModel costs) rounds) : Attributed (.withModel costs) rounds := by
  have hstart : Ledger costs (.withModel costs) [] [] :=
    ⟨List.Subperm.refl _, fun name => (List.append_nil _).symm⟩
  obtain ⟨entries, hledger⟩ := hstart.after rounds h
  refine ⟨entries, ?_, hledger.observed⟩
  exact (List.sublist_append_left _ _).subperm.trans hledger.carriedOut

/-! ## A cache that is never on -/

/-- Six hundred reads, and a query that takes ten nanoseconds. -/
def timed : Snapshot :=
  { readings 0 0 0 with perShape := ⟨[(0, ⟨600, 600, 6000, .record .new 10⟩)], List.nodup_singleton _⟩ }

def timedRound (opt : Optimization OptContext) (current : OptimizationConfig) : Round Unit where
  input := { tight opt with current := current, telemetry := timed }
  held := fun _ => false
  sink := idle
  steered := ⟨⟨current, []⟩, ()⟩
  reads := rfl

/-- A cache that fits is on after the first cycle, and measured in the fourth. -/
def smallCache : List (Round Unit) :=
  timedRound resultCache .new :: List.replicate 3 (timedRound resultCache withCache)

theorem small_cache_attributed : Attributed (.withModel .new) smallCache ∧
    ((after (.withModel .new) smallCache).costs.observations "result_cache").length = 1 :=
  ⟨learns_from_carried_out .new smallCache
    ⟨fun _ => by decide +kernel, fun _ => by decide +kernel, fun _ => by decide +kernel,
      fun _ => by decide +kernel, trivial⟩, by decide +kernel⟩

/-- A cache larger than the ceiling is rejected in every cycle, and measured in the fourth. -/
theorem large_cache_measured :
    ¬∀ rounds : List (Round Unit), Attributed (.withModel .new) rounds := by
  intro h
  obtain ⟨entries, hentries, hseen⟩ := h (List.replicate 4 (timedRound largeCache .new))
  have hnone : (measurementsDue (.withModel .new) (List.replicate 4 (timedRound largeCache .new))).length =
      0 := by decide +kernel
  have hone : ((after (.withModel .new) (List.replicate 4 (timedRound largeCache .new))).costs.observations
      "result_cache").length = 1 := by decide +kernel
  have hlen := hentries.length_le
  rw [hnone, List.length_map, Nat.le_zero, List.length_eq_zero_iff] at hlen
  rw [hseen, hlen] at hone
  cases hone

end Adabt.Opt
