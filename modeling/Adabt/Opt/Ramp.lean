import Adabt.Opt.Experiment
import Mathlib.Data.List.Infix
import Mathlib.Tactic.IntervalCases

/-! # The ramp

The phases of a change that is kept, in order. However the judge is driven, the
phases an experiment went through are the first ones of these, with a reversal
behind them if there was one. -/

set_option autoImplicit false

namespace Adabt.Opt

/-- The phases of a change that is kept. -/
def rungs : List Phase :=
  [.proposed, .building, .shadow, .canary 1, .canary 10, .canary 50, .canary 90, .promoted]

namespace Experiment

/-- The history is a beginning of the ramp, or one that was reverted before its end. -/
structure OnRamp (e : Experiment) : Prop where
  climbs : e.history <+: rungs ∨ ∃ h, e.history = h ++ [.reverted] ∧ h <+: rungs ∧ .promoted ∉ h
  stands : e.history.getLast? = some e.phase

theorem onRamp_new (id : ℕ) (d : Decision) (g : Guardrails) : (new id d g).OnRamp where
  climbs := .inl ⟨rungs.tail, rfl⟩
  stands := rfl

variable {e : Experiment}

theorem OnRamp.congr {e' : Experiment} (h : e.OnRamp) (hhistory : e'.history = e.history)
    (hphase : e'.phase = e.phase) : e'.OnRamp where
  climbs := hhistory ▸ h.climbs
  stands := by rw [hhistory, hphase]; exact h.stands

/-- What has not ended stands on a rung. -/
theorem OnRamp.rung (h : e.OnRamp) (hn : e.phase.isTerminal = false) :
    ∃ k < 7, e.history = rungs.take (k + 1) ∧ rungs[k]? = some e.phase := by
  have hstands := h.stands
  rcases h.climbs with hclimbs | ⟨before, hbefore, -, -⟩
  · rw [List.prefix_iff_eq_take] at hclimbs
    have hlen : e.history.length ≤ 8 := by
      rw [hclimbs, List.length_take]
      exact Nat.min_le_right _ _
    generalize e.history.length = n at hclimbs hlen
    rw [hclimbs] at hstands
    cases n with
    | zero => cases hstands
    | succ k =>
      have hk : k < 8 := hlen
      have hphase : rungs[k]? = some e.phase := by
        rw [← hstands]
        interval_cases k <;> rfl
      refine ⟨k, ?_, hclimbs, hphase⟩
      by_contra hlast
      obtain rfl : k = 7 := by omega
      rw [← Option.some.inj hphase] at hn
      cases hn
  · rw [hbefore, List.getLast?_concat] at hstands
    rw [← Option.some.inj hstands] at hn
    cases hn

theorem next_rung {k : ℕ} (hk : k < 7) {p q : Phase} (hp : rungs[k]? = some p) {v : Assessment}
    (hq : next p v = some q) : rungs[k + 1]? = some q := by
  interval_cases k <;> cases hp <;> rw [next] at hq
  · exact hq
  · exact hq
  all_goals
    split_ifs at hq
    exact hq

theorem next_ne {p q : Phase} (hn : p.isTerminal = false) {v : Assessment}
    (hq : next p v = some q) : q ≠ p := by
  rintro rfl
  cases q with
  | proposed => cases hq
  | building => cases hq
  | shadow =>
    rw [next] at hq
    split_ifs at hq
    cases hq
  | canary p =>
    rw [next] at hq
    split_ifs at hq
    cases hstep : canarySteps.find? (p < ·) with
    | none => rw [hstep] at hq; cases hq
    | some step =>
      have hlt := List.find?_some hstep
      rw [hstep] at hq
      split at hq
      · cases hq
      · cases hq
        rename_i hs
        cases hs
        simp at hlt
      · cases hq
  | promoted => cases hn
  | reverted => cases hn

theorem OnRamp.enter_next (h : e.OnRamp) (hn : e.phase.isTerminal = false) {v : Assessment}
    {q : Phase} (hq : next e.phase v = some q) : (e.enter q).OnRamp := by
  obtain ⟨k, hk, hhistory, hphase⟩ := h.rung hn
  have hnext := next_rung hk hphase hq
  constructor
  · left
    change e.history ++ [q] <+: rungs
    have htake : rungs.take (k + 1) ++ [q] = rungs.take (k + 1 + 1) := by
      conv_rhs => rw [List.take_add_one, hnext]
      rfl
    rw [hhistory, htake]
    exact List.take_prefix _ _
  · exact List.getLast?_concat

theorem OnRamp.enter_reverted (h : e.OnRamp) (hn : e.phase.isTerminal = false) :
    (e.enter .reverted).OnRamp := by
  obtain ⟨k, hk, hhistory, -⟩ := h.rung hn
  constructor
  · refine .inr ⟨e.history, rfl, ?_, ?_⟩
    · rw [hhistory]
      exact List.take_prefix _ _
    · rw [hhistory]
      interval_cases k <;> decide
  · exact List.getLast?_concat

/-! ## What advancing can do -/

theorem noteProgress_phase (e : Experiment) : e.noteProgress.phase = e.phase := by
  unfold noteProgress
  split_ifs <;> rfl

theorem noteProgress_history (e : Experiment) : e.noteProgress.history = e.history := by
  unfold noteProgress
  split_ifs <;> rfl

inductive Advanced (e : Experiment) : Experiment → Prop
  | rests (h : e.phase.isTerminal = true) : Advanced e e
  | aborts (why : String) (h : e.phase.isTerminal = false)
      (ha : e.noteProgress.assess = .abort why) :
      Advanced e ({ e.noteProgress with abortedBecause := some why }.enter .reverted)
  | waits (hm : e.phase.isMeasuring = true) (ha : e.noteProgress.assess = .inconclusive) :
      Advanced e e.noteProgress
  | climbs (phase : Phase) (h : e.phase.isTerminal = false)
      (hn : next e.phase e.noteProgress.assess = some phase)
      (hh : e.phase.isMeasuring = true → e.noteProgress.assess = .healthy)
      (ha : ∀ why, e.noteProgress.assess ≠ .abort why) :
      Advanced e (e.noteProgress.enter phase)

theorem next_measuring {p q : Phase} (hm : p.isMeasuring = true) {v : Assessment}
    (hq : next p v = some q) : v = .healthy := by
  cases p with
  | shadow =>
    rw [next] at hq
    split_ifs at hq with hv
    exact hv
  | canary p =>
    rw [next] at hq
    split_ifs at hq with hv
    exact hv
  | _ => cases hm

theorem next_eq_none {p : Phase} {v : Assessment} (h : next p v = none) :
    p.isMeasuring = true ∧ v ≠ .healthy := by
  cases p with
  | shadow =>
    rw [next] at h
    split_ifs at h with hv
    exact ⟨rfl, hv⟩
  | canary p =>
    rw [next] at h
    split_ifs at h with hv
    · split at h <;> cases h
    · exact ⟨rfl, hv⟩
  | _ => cases h

theorem advanced (e : Experiment) : Advanced e e.advance := by
  unfold advance
  cases ht : e.phase.isTerminal with
  | true => exact .rests ht
  | false =>
    simp only [Bool.false_eq_true, if_false]
    cases ha : e.noteProgress.assess with
    | abort why =>
      have habort : e.noteProgress.abort why =
          { e.noteProgress with abortedBecause := some why }.enter .reverted := by
        unfold abort
        rw [noteProgress_phase, ht]
        rfl
      dsimp only
      rw [habort]
      exact .aborts why ht ha
    | inconclusive =>
      dsimp only
      rw [noteProgress_phase]
      cases hnext : next e.phase .inconclusive with
      | none => exact .waits (next_eq_none hnext).1 ha
      | some phase =>
        refine .climbs phase ht (ha ▸ hnext) (fun hm => ?_) fun why h => ?_
        · cases next_measuring hm hnext
        · rw [ha] at h
          cases h
    | healthy =>
      dsimp only
      rw [noteProgress_phase]
      cases hnext : next e.phase .healthy with
      | none => exact absurd rfl (next_eq_none hnext).2
      | some phase =>
        refine .climbs phase ht (ha ▸ hnext) (fun _ => ha) fun why h => ?_
        rw [ha] at h
        cases h

theorem OnRamp.advance (h : e.OnRamp) : e.advance.OnRamp := by
  have hnoted : e.noteProgress.OnRamp := h.congr e.noteProgress_history e.noteProgress_phase
  generalize hafter : e.advance = after
  have hadvanced := advanced e
  rw [hafter] at hadvanced
  cases hadvanced with
  | rests => exact h
  | aborts why ht ha =>
    refine (hnoted.congr ?_ ?_).enter_reverted ?_
    · rfl
    · rfl
    · rw [← ht, ← e.noteProgress_phase]
  | waits => exact hnoted
  | climbs phase ht hn =>
    rw [← e.noteProgress_phase] at ht hn
    exact hnoted.enter_next ht hn

theorem OnRamp.abort (h : e.OnRamp) (why : String) : (e.abort why).OnRamp := by
  unfold Experiment.abort
  split_ifs with ht
  · exact h
  · exact OnRamp.enter_reverted (h.congr rfl rfl) (Bool.eq_false_iff.mpr ht)

/-! ## What condemns -/

theorem assess_of_fault (h : 0 < e.divergences ∨ 0 < e.candidate.errors) :
    ∃ why, e.assess = .abort why := by
  unfold assess
  by_cases hd : 0 < e.divergences
  · rw [if_pos hd]
    exact ⟨_, rfl⟩
  · rw [if_neg hd, if_pos (h.resolve_left hd)]
    exact ⟨_, rfl⟩

/-- What is not condemned at once is judged by the samples. -/
theorem assess_cases (e : Experiment) : (∃ why, e.assess = .abort why) ∨ (e.isStalled = false ∧
    (e.assess = .healthy → e.requiredSamples.1 ≤ e.baseline.samples ∧
      e.requiredSamples.2 ≤ e.candidate.samples)) := by
  by_cases hf : 0 < e.divergences ∨ 0 < e.candidate.errors
  · exact .inl (assess_of_fault hf)
  rw [not_or] at hf
  unfold assess
  rw [if_neg hf.1, if_neg hf.2]
  cases e.guardrails.maxRamBytes.filter (· < e.candidate.ramBytes) with
  | some most => exact .inl ⟨_, rfl⟩
  | none =>
    dsimp only
    cases e.isStalled with
    | true => exact .inl ⟨_, rfl⟩
    | false =>
      refine .inr ⟨rfl, fun h => ?_⟩
      by_cases hfew : e.candidate.samples < e.requiredSamples.2 ∨
          e.baseline.samples < e.requiredSamples.1
      · rw [if_neg Bool.false_ne_true, if_pos hfew] at h
        cases h
      · rw [not_or, Nat.not_lt, Nat.not_lt] at hfew
        exact hfew.symm

end Experiment

end Adabt.Opt
