import Adabt.Engine.Experiment
import Adabt.Opt.Ramp

/-! # What any sequence of evidence does to an experiment

Samples, comparisons, advances and aborts in any order: the ramp is climbed rung
by rung, each step out of a measuring phase rests on samples recorded in that
phase, and what is condemned or starved is reverted. -/

set_option autoImplicit false

namespace Adabt.Engine.LiveExperiment
open Adabt.Library Adabt.Opt

def history (l : LiveExperiment) : List Phase := l.experiment.history

namespace Event

def isBaseline : Event → Bool
  | baseline _ _ => true
  | _ => false

def isCandidate : Event → Bool
  | candidate _ _ => true
  | _ => false

def isAdvance : Event → Bool
  | advance _ => true
  | _ => false

/-- An error of the candidate, or a wrong answer. -/
def isFault : Event → Bool
  | candidate _ ok => !ok
  | compared t => t.diverged
  | _ => false

end Event

/-- The events since the phase was entered, these before them. -/
def since (seg : List Event) : LiveExperiment → List Event → List Event
  | _, [] => seg
  | l, e :: es =>
    since (if (step e l).history = l.history then seg ++ [e] else []) (step e l) es

theorem since_concat (seg : List Event) (l : LiveExperiment) (es : List Event) (e : Event) :
    since seg l (es ++ [e]) =
      if (run step l (es ++ [e])).history = (run step l es).history then since seg l es ++ [e]
      else [] := by
  induction es generalizing seg l with
  | nil => rfl
  | cons f es ih => exact ih _ _

/-- The law of the ramp, for an experiment as it begins. -/
structure RampLaw (start : LiveExperiment) : Prop where
  ramp : ∀ es, (run step start es).experiment.OnRamp
  /-- A phase is left for the next one only when asked to advance, with enough samples of this
  phase on both sides and a healthy verdict. -/
  earned : ∀ es e, (run step start es).phase.isMeasuring = true →
    (run step start (es ++ [e])).phase ≠ (run step start es).phase →
    (run step start (es ++ [e])).phase = .reverted ∨
      ∃ ram, e = .advance ram ∧ ((run step start es).judged ram).assess = .healthy ∧
        ((run step start es).judged ram).requiredSamples.1 ≤
          (since [] start es).countP Event.isBaseline ∧
        ((run step start es).judged ram).requiredSamples.2 ≤
          (since [] start es).countP Event.isCandidate
  /-- After a fault the next advance reverts. -/
  condemned : ∀ es e rest ram, (run step start es).phase.isTerminal = false → e.isFault = true →
    (run step start (es ++ e :: rest)).phase ≠ .promoted ∧
      (run step start (es ++ e :: rest ++ [.advance ram])).phase = .reverted
  absorbed : ∀ es more, (run step start es).phase.isTerminal = true →
    (run step start (es ++ more)).experiment.phase = (run step start es).phase ∧
      (run step start (es ++ more)).history = (run step start es).history
  /-- 250 advances in one measuring phase, behind another one and without a sample of the
  candidate since. -/
  starved : ∀ es ram rest ram', (run step start (es ++ [.advance ram])).phase.isMeasuring = true →
    (∀ e ∈ rest, e.isCandidate = false) → rest.countP Event.isAdvance + 1 = maxStalledAdvances →
    (run step start (es ++ .advance ram :: rest)).history =
      (run step start (es ++ [.advance ram])).history →
    (run step start (es ++ .advance ram :: rest ++ [.advance ram'])).phase = .reverted

/-! ## One event -/

theorem not_measuring {p : Phase} (h : p.isTerminal = true) : ¬ p.isMeasuring = true := by
  cases p with
  | promoted => exact Bool.false_ne_true
  | reverted => exact Bool.false_ne_true
  | _ => cases h

theorem judged_phase (l : LiveExperiment) (ram : ℕ) : (l.judged ram).phase = l.phase :=
  (l.fold ram).experiment.noteProgress_phase

theorem judged_history (l : LiveExperiment) (ram : ℕ) : (l.judged ram).history = l.history :=
  (l.fold ram).experiment.noteProgress_history

theorem settleIn_experiment (before after : LiveExperiment) :
    (settleIn before after).experiment = after.experiment := by
  unfold settleIn
  split_ifs <;> rfl

theorem step_advance_experiment (l : LiveExperiment) (ram : ℕ) :
    (step (.advance ram) l).experiment = (l.fold ram).experiment.advance :=
  settleIn_experiment l (l.advance ram)

theorem judged_samples (l : LiveExperiment) (ram : ℕ) :
    (l.judged ram).baseline.samples = l.baseline.count ∧
      (l.judged ram).candidate.samples = l.candidate.count ∧
      (l.judged ram).candidate.errors = l.candidateErrors ∧
      (l.judged ram).divergences = l.shadow.divergences := by
  unfold judged Experiment.noteProgress
  split_ifs <;> exact ⟨rfl, rfl, rfl, rfl⟩

/-- What an advance leaves behind: the experiment as it was judged, or one phase on. -/
theorem advanced_live (l : LiveExperiment) (ram : ℕ) :
    Experiment.Advanced (l.fold ram).experiment (step (.advance ram) l).experiment := by
  rw [step_advance_experiment]
  exact Experiment.advanced _

theorem step_onRamp {l : LiveExperiment} (h : l.experiment.OnRamp) (e : Event) :
    (step e l).experiment.OnRamp := by
  cases e with
  | advance ram =>
    rw [step_advance_experiment]
    exact Experiment.OnRamp.advance (h.congr rfl rfl)
  | abort why => exact h.abort why
  | _ => exact h

theorem step_terminal {l : LiveExperiment} (h : l.phase.isTerminal = true) (e : Event) :
    (step e l).phase = l.phase ∧ (step e l).history = l.history := by
  cases e with
  | advance ram =>
    have hrest : (l.fold ram).experiment.advance = (l.fold ram).experiment := if_pos h
    rw [phase, history, step_advance_experiment, hrest]
    exact ⟨rfl, rfl⟩
  | abort why =>
    have hrest : l.experiment.abort why = l.experiment := if_pos h
    rw [phase, history, step, hrest]
    exact ⟨rfl, rfl⟩
  | _ => exact ⟨rfl, rfl⟩

theorem run_terminal {l : LiveExperiment} (h : l.phase.isTerminal = true) (es : List Event) :
    (run step l es).phase = l.phase ∧ (run step l es).history = l.history := by
  induction es generalizing l with
  | nil => exact ⟨rfl, rfl⟩
  | cons e es ih =>
    obtain ⟨hphase, hhistory⟩ := step_terminal h e
    have hrest := ih (hphase ▸ h)
    exact ⟨hrest.1.trans hphase, hrest.2.trans hhistory⟩

theorem settleIn_same {before after : LiveExperiment} (h : after.phase = before.phase) :
    settleIn before after = after := if_neg fun hne => hne.1 h

theorem settleIn_entered {before after : LiveExperiment} (hne : after.phase ≠ before.phase)
    (hm : after.phase.isMeasuring = true) : settleIn before after = after.resetMeasurements :=
  if_pos ⟨hne, hm⟩

/-- How an advance goes, seen from the whole experiment. -/
inductive Moved (l : LiveExperiment) (ram : ℕ) : LiveExperiment → Prop
  | rests (h : l.phase.isTerminal = true) : Moved l ram (l.fold ram)
  | reverts (l' : LiveExperiment) (hphase : l'.phase = .reverted)
      (hhistory : l'.history = l.history ++ [.reverted]) : Moved l ram l'
  | waits (hm : l.phase.isMeasuring = true) (ha : (l.judged ram).assess = .inconclusive) :
      Moved l ram { l.fold ram with experiment := l.judged ram }
  | enters (phase : Phase) (h : l.phase.isTerminal = false) (hne : phase ≠ l.phase)
      (hh : l.phase.isMeasuring = true → (l.judged ram).assess = .healthy)
      (ha : ∀ why, (l.judged ram).assess ≠ .abort why) :
      Moved l ram
        (settleIn l { l.fold ram with experiment := (l.judged ram).enter phase })

theorem moved (l : LiveExperiment) (ram : ℕ) : Moved l ram (step (.advance ram) l) := by
  have hadvanced := Experiment.advanced (l.fold ram).experiment
  have hstep : step (.advance ram) l = settleIn l { l.fold ram with
      experiment := (l.fold ram).experiment.advance } := rfl
  rw [hstep]
  generalize (l.fold ram).experiment.advance = after at hadvanced
  cases hadvanced with
  | rests h =>
    have hsame : settleIn l (l.fold ram) = l.fold ram := settleIn_same rfl
    change Moved l ram (settleIn l (l.fold ram))
    rw [hsame]
    exact .rests h
  | aborts why h ha =>
    refine .reverts _ ?_ ?_
    · rw [phase, settleIn_experiment]
      rfl
    · rw [history, settleIn_experiment]
      change (l.judged ram).history ++ _ = _
      rw [judged_history]
  | waits hm ha =>
    have hsame : settleIn l { l.fold ram with experiment := l.judged ram } =
        { l.fold ram with experiment := l.judged ram } := settleIn_same (l.judged_phase ram)
    rw [← judged, hsame]
    exact .waits hm ha
  | climbs phase h hn hh ha => exact .enters phase h (Experiment.next_ne h hn) hh ha

/-- An advance that enters a phase puts it behind the history. -/
theorem enters_history (l : LiveExperiment) (ram : ℕ) (phase : Phase) :
    (settleIn l { l.fold ram with experiment := (l.judged ram).enter phase }).history =
      l.history ++ [phase] ∧
    (settleIn l { l.fold ram with experiment := (l.judged ram).enter phase }).phase = phase := by
  rw [history, LiveExperiment.phase, settleIn_experiment]
  refine ⟨?_, rfl⟩
  change (l.judged ram).history ++ _ = _
  rw [judged_history]

theorem step_history (e : Event) (l : LiveExperiment) : (step e l).history = l.history ∨
    l.history.length < (step e l).history.length := by
  cases e with
  | advance ram =>
    have hmoved := moved l ram
    generalize step (.advance ram) l = after at hmoved
    cases hmoved with
    | rests => exact .inl rfl
    | reverts _ _ hhistory =>
      right
      rw [hhistory, List.length_append]
      exact Nat.lt_succ_self _
    | waits => exact .inl (l.judged_history ram)
    | enters phase =>
      right
      rw [(l.enters_history ram phase).1, List.length_append]
      exact Nat.lt_succ_self _
  | abort why =>
    rw [step, history, history]
    dsimp only
    unfold Experiment.abort
    split_ifs with ht
    · exact .inl rfl
    · right
      change _ < (l.experiment.history ++ _).length
      rw [List.length_append]
      exact Nat.lt_succ_self _
  | _ => exact .inl rfl

theorem run_history_le (l : LiveExperiment) (es : List Event) :
    l.history.length ≤ (run step l es).history.length := by
  induction es generalizing l with
  | nil => exact Nat.le_refl _
  | cons e es ih =>
    refine Nat.le_trans ?_ (ih (step e l))
    rcases step_history e l with heq | hlt
    · rw [heq]
    · exact Nat.le_of_lt hlt

/-- A run that enters no phase enters none at its first event. -/
theorem history_of_run {l : LiveExperiment} {e : Event} {es : List Event}
    (h : (run step l (e :: es)).history = l.history) :
    (step e l).history = l.history ∧ (run step (step e l) es).history = (step e l).history := by
  have hfirst : (step e l).history = l.history := by
    rcases step_history e l with heq | hlt
    · exact heq
    · have hle := run_history_le (step e l) es
      rw [← run_cons, h] at hle
      omega
  exact ⟨hfirst, h.trans hfirst.symm⟩

/-! ## Samples of the phase -/

/-- The populations hold the samples of the phase, and nothing else. -/
def Counted (l : LiveExperiment) (seg : List Event) : Prop :=
  l.phase.isMeasuring = true → l.baseline.count = seg.countP Event.isBaseline ∧
    l.candidate.count = seg.countP Event.isCandidate

theorem step_counted {l : LiveExperiment} {seg : List Event} (h : Counted l seg) (e : Event) :
    Counted (step e l) (if (step e l).history = l.history then seg ++ [e] else []) := by
  intro hm
  cases e with
  | advance ram =>
    have hmoved := moved l ram
    generalize step (.advance ram) l = after at hmoved hm
    cases hmoved with
    | rests ht =>
      exact absurd hm (not_measuring ht)
    | reverts _ hphase =>
      rw [hphase] at hm
      cases hm
    | waits hl =>
      have hsame : ({ l.fold ram with experiment := l.judged ram } : LiveExperiment).history =
          l.history := l.judged_history ram
      rw [if_pos hsame, List.countP_append, List.countP_append]
      exact h hl
    | enters phase _ hne =>
      obtain ⟨hhistory, hphase⟩ := l.enters_history ram phase
      rw [hphase] at hm
      have hreset : settleIn l { l.fold ram with experiment := (l.judged ram).enter phase } =
          LiveExperiment.resetMeasurements _ := settleIn_entered hne hm
      rw [if_neg (by rw [hhistory]; simp), hreset]
      exact ⟨rfl, rfl⟩
  | abort why =>
    have habort : (step (.abort why) l).phase.isMeasuring = true → l.phase.isTerminal = true := by
      intro hm
      by_contra ht
      have hreverted : l.experiment.abort why =
          { l.experiment with abortedBecause := some why }.enter .reverted := if_neg ht
      rw [step, phase, hreverted] at hm
      cases hm
    obtain ⟨hphase, -⟩ := step_terminal (habort hm) (.abort why)
    rw [hphase] at hm
    exact absurd hm (not_measuring (habort (hphase ▸ hm)))
  | baseline nanos ok =>
    rw [if_pos (show (step (.baseline nanos ok) l).history = l.history from rfl), List.countP_append, List.countP_append]
    obtain ⟨hb, hc⟩ := h hm
    exact ⟨congrArg (· + 1) hb, hc⟩
  | candidate nanos ok =>
    rw [if_pos (show (step (.candidate nanos ok) l).history = l.history from rfl), List.countP_append, List.countP_append]
    obtain ⟨hb, hc⟩ := h hm
    exact ⟨hb, congrArg (· + 1) hc⟩
  | _ =>
    rw [if_pos (show (step _ l).history = l.history from rfl), List.countP_append,
      List.countP_append]
    exact h hm

theorem counted (start : LiveExperiment) (h : start.phase = .proposed) (es : List Event) :
    Counted (run step start es) (since [] start es) := by
  induction es using List.reverseRecOn with
  | nil =>
    intro hm
    rw [run_nil, h] at hm
    cases hm
  | append_singleton es e ih =>
    rw [since_concat, run_append]
    exact step_counted ih e

/-! ## Faults -/

/-- Reverted, or about to be. -/
def Faulted (l : LiveExperiment) : Prop := l.phase = .reverted ∨
  (l.phase.isTerminal = false ∧ (0 < l.shadow.divergences ∨ 0 < l.candidateErrors))

theorem Faulted.advance {l : LiveExperiment} (h : Faulted l) (ram : ℕ) :
    (step (.advance ram) l).phase = .reverted := by
  rcases h with hphase | ⟨ht, hf⟩
  · rw [(step_terminal (by rw [hphase]; rfl) _).1, hphase]
  · have hcondemned : ∃ why, (l.judged ram).assess = .abort why := by
      apply Experiment.assess_of_fault
      obtain ⟨-, -, herrors, hdivergences⟩ := l.judged_samples ram
      rw [herrors, hdivergences]
      exact hf
    obtain ⟨why, hwhy⟩ := hcondemned
    have hmoved := moved l ram
    generalize step (.advance ram) l = after at hmoved
    cases hmoved with
    | rests h =>
      rw [ht] at h
      cases h
    | reverts _ hphase => exact hphase
    | waits _ ha =>
      rw [hwhy] at ha
      cases ha
    | enters _ _ _ _ ha => exact absurd hwhy (ha why)

theorem Faulted.step {l : LiveExperiment} (h : Faulted l) (e : Event) :
    Faulted (LiveExperiment.step e l) := by
  by_cases hphase : l.phase = .reverted
  · left
    rw [(step_terminal (by rw [hphase]; rfl) e).1, hphase]
  · obtain ⟨ht, hf⟩ := h.resolve_left hphase
    cases e with
    | advance ram => exact .inl (h.advance ram)
    | abort why =>
      have hreverted : l.experiment.abort why =
          { l.experiment with abortedBecause := some why }.enter .reverted :=
        if_neg (Bool.eq_false_iff.mp ht)
      left
      rw [LiveExperiment.step, phase, hreverted]
      rfl
    | candidate nanos ok =>
      refine .inr ⟨ht, hf.imp_right fun h => ?_⟩
      change 0 < if ok = true then l.candidateErrors else l.candidateErrors + 1
      split_ifs <;> omega
    | compared t =>
      refine .inr ⟨ht, hf.imp_left fun h => ?_⟩
      change 0 < if t.diverged = true then l.shadow.divergences + 1 else l.shadow.divergences
      split_ifs <;> omega
    | _ => exact .inr ⟨ht, hf⟩

theorem faulted_run {l : LiveExperiment} (h : Faulted l) (es : List Event) :
    Faulted (run LiveExperiment.step l es) :=
  run_keeps (I := Faulted) (fun e _ hl => Faulted.step hl e) es h

theorem faulted_of_fault {l : LiveExperiment} (ht : l.phase.isTerminal = false) {e : Event}
    (he : e.isFault = true) : Faulted (step e l) := by
  cases e with
  | candidate nanos ok =>
    obtain rfl : ok = false := by simpa [Event.isFault] using he
    exact .inr ⟨ht, .inr (Nat.succ_pos _)⟩
  | compared t =>
    have hd : t.diverged = true := he
    refine .inr ⟨ht, .inl ?_⟩
    change 0 < if t.diverged = true then l.shadow.divergences + 1 else l.shadow.divergences
    rw [if_pos hd]
    exact Nat.succ_pos _
  | _ => cases he

/-! ## Starvation -/

/-- So many advances have passed without a sample. -/
structure Idle (n : ℕ) (l : LiveExperiment) : Prop where
  measuring : l.phase.isMeasuring = true
  noted : l.experiment.lastCandidateSamples = l.candidate.count
  stalled : n ≤ l.experiment.stalled

theorem judged_idle {n : ℕ} {l : LiveExperiment} (h : Idle n l) (ram : ℕ) :
    (l.judged ram).lastCandidateSamples = l.candidate.count ∧ n + 1 ≤ (l.judged ram).stalled := by
  have hm : (l.fold ram).experiment.phase.isMeasuring = true := h.measuring
  have hold : ¬ (l.fold ram).experiment.lastCandidateSamples <
      (l.fold ram).experiment.candidate.samples := by
    change ¬ l.experiment.lastCandidateSamples < l.candidate.count
    rw [h.noted]
    exact Nat.lt_irrefl _
  unfold judged Experiment.noteProgress
  rw [if_pos hm, if_neg hold]
  exact ⟨rfl, Nat.succ_le_succ h.stalled⟩

/-- Entering a measuring phase, or staying in one, catches up with the samples. -/
theorem idle_of_advance {l : LiveExperiment} {ram : ℕ}
    (hm : (step (.advance ram) l).phase.isMeasuring = true) : Idle 0 (step (.advance ram) l) := by
  have hmoved := moved l ram
  generalize step (.advance ram) l = after at hmoved hm
  cases hmoved with
  | rests ht => exact absurd hm (not_measuring ht)
  | reverts _ hphase =>
    rw [hphase] at hm
    cases hm
  | waits hl =>
    refine ⟨hm, ?_, Nat.zero_le _⟩
    have hl : (l.fold ram).experiment.phase.isMeasuring = true := hl
    change (l.judged ram).lastCandidateSamples = l.candidate.count
    unfold judged Experiment.noteProgress
    rw [if_pos hl]
    rfl
  | enters phase _ hne =>
    rw [(l.enters_history ram phase).2] at hm
    have hreset : settleIn l { l.fold ram with experiment := (l.judged ram).enter phase } =
        LiveExperiment.resetMeasurements _ := settleIn_entered hne hm
    rw [hreset]
    exact ⟨hm, rfl, Nat.zero_le _⟩

theorem Idle.step {n : ℕ} {l : LiveExperiment} (h : Idle n l) {e : Event}
    (hc : e.isCandidate = false) (hsame : (LiveExperiment.step e l).history = l.history) :
    Idle (n + if e.isAdvance then 1 else 0) (LiveExperiment.step e l) := by
  cases e with
  | advance ram =>
    have hmoved := moved l ram
    generalize LiveExperiment.step (.advance ram) l = after at hmoved hsame
    cases hmoved with
    | rests ht => exact absurd h.measuring (not_measuring ht)
    | reverts _ _ hhistory =>
      rw [hhistory] at hsame
      simp at hsame
    | waits =>
      obtain ⟨hnoted, hstalled⟩ := judged_idle h ram
      refine ⟨?_, hnoted, hstalled⟩
      change (l.judged ram).phase.isMeasuring = true
      rw [judged_phase]
      exact h.measuring
    | enters phase =>
      rw [(l.enters_history ram phase).1] at hsame
      simp at hsame
  | candidate nanos ok => cases hc
  | abort why =>
    have hreverted : l.experiment.abort why =
        { l.experiment with abortedBecause := some why }.enter .reverted :=
      if_neg fun ht => not_measuring ht h.measuring
    rw [LiveExperiment.step, history, hreverted] at hsame
    have hgrown : l.history ++ [.reverted] = l.history := hsame
    simp at hgrown
  | _ => exact ⟨h.measuring, h.noted, h.stalled⟩

theorem idle_run {n : ℕ} {l : LiveExperiment} (h : Idle n l) {es : List Event}
    (hc : ∀ e ∈ es, e.isCandidate = false) (hsame : (run step l es).history = l.history) :
    Idle (n + es.countP Event.isAdvance) (run step l es) := by
  induction es generalizing n l with
  | nil => exact h
  | cons e es ih =>
    obtain ⟨hfirst, hrest⟩ := history_of_run hsame
    have hnext := h.step (hc e List.mem_cons_self) hfirst
    have hrun := ih hnext (fun f hf => hc f (List.mem_cons_of_mem e hf)) hrest
    rw [List.countP_cons, Nat.add_comm (es.countP _), ← Nat.add_assoc]
    exact hrun

theorem Idle.reverts {n : ℕ} {l : LiveExperiment} (h : Idle n l) (hn : maxStalledAdvances ≤ n + 1)
    (ram : ℕ) : (LiveExperiment.step (.advance ram) l).phase = .reverted := by
  have hstalled : (l.judged ram).isStalled = true :=
    decide_eq_true (Nat.le_trans hn (judged_idle h ram).2)
  have hcondemned : ∃ why, (l.judged ram).assess = .abort why := by
    rcases (l.judged ram).assess_cases with hwhy | ⟨hnot, -⟩
    · exact hwhy
    · rw [hstalled] at hnot
      cases hnot
  obtain ⟨why, hwhy⟩ := hcondemned
  have hmoved := moved l ram
  generalize LiveExperiment.step (.advance ram) l = after at hmoved
  cases hmoved with
  | rests ht => exact absurd h.measuring (not_measuring ht)
  | reverts _ hphase => exact hphase
  | waits _ ha =>
    rw [hwhy] at ha
    cases ha
  | enters _ _ _ _ ha => exact absurd hwhy (ha why)

/-! ## The law -/

theorem ramp_law (id : ℕ) (d : Decision) (collection : String) (g : Guardrails) :
    RampLaw (new id d collection g) where
  ramp es := run_keeps (I := fun l : LiveExperiment => l.experiment.OnRamp)
    (fun e _ hl => step_onRamp hl e) es (Experiment.onRamp_new id d g)
  earned es e hm hne := by
    have hcounted := counted (new id d collection g) rfl es hm
    rw [run_append] at hne ⊢
    generalize run step (new id d collection g) es = l at hm hne hcounted
    cases e with
    | advance ram =>
      change (step (.advance ram) l).phase = .reverted ∨ _
      change (step (.advance ram) l).phase ≠ l.phase at hne
      have hmoved := moved l ram
      generalize step (.advance ram) l = after at hmoved hne
      cases hmoved with
      | rests => exact absurd rfl hne
      | reverts _ hphase => exact .inl hphase
      | waits => exact absurd (l.judged_phase ram) hne
      | enters phase _ _ hh ha =>
        have hhealthy := hh hm
        rcases (l.judged ram).assess_cases with ⟨why, hwhy⟩ | ⟨-, hsamples⟩
        · exact absurd hwhy (ha why)
        · obtain ⟨hb, hc, -, -⟩ := l.judged_samples ram
          have hneeded := hsamples hhealthy
          rw [hb, hc, hcounted.1, hcounted.2] at hneeded
          exact .inr ⟨ram, rfl, hhealthy, hneeded⟩
    | abort why =>
      have hreverted : l.experiment.abort why =
          { l.experiment with abortedBecause := some why }.enter .reverted :=
        if_neg fun ht => not_measuring ht hm
      left
      rw [run_cons, run_nil, step, phase, hreverted]
      rfl
    | _ => exact absurd rfl hne
  condemned es e rest ram ht he := by
    have hfaulted : Faulted (run step (new id d collection g) (es ++ e :: rest)) := by
      rw [run_append, run_cons]
      exact faulted_run (faulted_of_fault ht he) rest
    constructor
    · rcases hfaulted with hphase | ⟨hgoing, -⟩
      · rw [hphase]
        exact Phase.noConfusion
      · intro hpromoted
        rw [hpromoted] at hgoing
        cases hgoing
    · rw [run_append]
      exact hfaulted.advance ram
  absorbed es more ht := by
    rw [run_append]
    exact run_terminal ht more
  starved es ram rest ram' hm hc hcount hsame := by
    have hrun : ∀ more, run step (new id d collection g) (es ++ .advance ram :: more) =
        run step (run step (new id d collection g) (es ++ [.advance ram])) more := by
      intro more
      rw [run_append, run_append]
      rfl
    rw [hrun] at hsame
    rw [run_append, hrun]
    rw [run_append] at hm hsame ⊢
    have hidle := idle_run (idle_of_advance hm) hc hsame
    rw [Nat.zero_add] at hidle
    exact hidle.reverts (Nat.le_of_eq hcount.symm) ram'

end Adabt.Engine.LiveExperiment
