import Adabt.Library.Program
import Adabt.Opt.Adaptive

/-! # The adaptive driver over its cycles

What a cycle may propose, and what earlier cycles rule out in it. A scope that was
changed is in its cooldown from then on, and one that was retracted for a reason
recognised as measured is kept out longer. -/

set_option autoImplicit false

namespace Adabt.Opt
open Adabt.Core Adabt.Library Adabt.Telemetry

namespace AdaptiveDriver

variable {d : AdaptiveDriver} {input : DriverInput}

/-! ## Candidates -/

theorem removal_spec {k : Place} {x : Decision} {s : F64} (h : d.removal input k = some (x, s)) :
    x.place = k ∧ x.action = .disable ∧ d.inCooldown k = false ∧
      ∀ r, unusedReason x.optimization x.scope input.telemetry input.ctx = some r → x.trigger = r := by
  rw [removal] at h
  dsimp only at h
  cases hcool : d.inCooldown k with
  | true =>
    rw [hcool, if_pos rfl] at h
    cases h
  | false =>
    rw [hcool, if_neg Bool.false_ne_true] at h
    cases hinfo : input.catalogue.registry.info (ofLex k).1 with
    | none =>
      rw [hinfo] at h
      cases h
    | some m =>
      have hname : m.name = (ofLex k).1 := by
        rw [Registry.info, Option.map_eq_some_iff] at hinfo
        obtain ⟨opt, hget, rfl⟩ := hinfo
        exact input.catalogue.registry.named _ opt hget
      rw [hinfo] at h
      dsimp only at h
      cases hreason : unusedReason (ofLex k).1 (ofLex k).2 input.telemetry input.ctx with
      | some reason =>
        rw [hreason] at h
        cases h
        refine ⟨congrArg (place · _) hname, rfl, rfl, fun r hr => ?_⟩
        change unusedReason m.name (ofLex k).2 input.telemetry input.ctx = some r at hr
        rw [hname, hreason] at hr
        exact Option.some_injective _ hr
      | none =>
        rw [hreason] at h
        dsimp only at h
        split_ifs at h
        cases h
        refine ⟨congrArg (place · _) hname, rfl, rfl, fun r hr => ?_⟩
        change unusedReason m.name (ofLex k).2 input.telemetry input.ctx = some r at hr
        rw [hname, hreason] at hr
        cases hr

theorem addition_spec {name scope : String} {x : Decision} {s : F64}
    (h : d.addition input name scope = some (x, s)) : x.optimization = name ∧ x.scope = scope ∧
      x.action = .enable ∧ input.current.params name scope = none ∧
      d.inCooldown (place name scope) = false ∧ d.recentlyRetracted (place name scope) = false := by
  rw [addition] at h
  dsimp only at h
  split_ifs at h with hskip
  cases h
  simp only [Bool.or_eq_true, not_or, Bool.not_eq_true, Option.isSome_eq_false_iff,
    Option.isNone_iff_eq_none] at hskip
  exact ⟨rfl, rfl, rfl, hskip.1.1, hskip.1.2, hskip.2⟩

theorem mem_removals {x : Decision} {s : F64} (h : (x, s) ∈ d.removals input) :
    ∃ k, (∃ p, (k, p) ∈ input.current.entries) ∧ d.removal input k = some (x, s) := by
  rw [removals, List.mem_mergeSort, List.mem_filterMap] at h
  obtain ⟨⟨k, p⟩, hmem, hk⟩ := h
  exact ⟨k, ⟨p, hmem⟩, hk⟩

theorem mem_additionsOf {opt : Optimization OptContext} {a : Decision × F64}
    (h : a ∈ d.additionsOf input opt) : permittedBy opt.metadata input.policy.toPolicy = true ∧
      (opt.applicability input.ctx).isApplicable = true ∧
      (input.catalogue.profile opt.metadata.name).reversibility ≠ .destructive ∧
      ∃ scope ∈ opt.candidateScopes input.ctx, d.addition input opt.metadata.name scope = some a := by
  rw [additionsOf] at h
  split_ifs at h with hpermitted happlicable hdestructive
  · exact absurd h List.not_mem_nil
  · exact absurd h List.not_mem_nil
  · exact absurd h List.not_mem_nil
  · obtain ⟨scope, hscope, ha⟩ := List.mem_filterMap.mp h
    exact ⟨by simpa using hpermitted, by simpa using happlicable, hdestructive, scope, hscope, ha⟩

theorem mem_additions {a : Decision × F64} (h : a ∈ d.additions input) :
    ∃ opt ∈ input.catalogue.registry.iter, a ∈ d.additionsOf input opt := by
  rw [additions, List.mem_mergeSort, List.mem_flatMap] at h
  exact h

/-- What recall reorders are the decisions it was given, with another text. -/
theorem mem_recallFirst {recalled : Option (OptimizationConfig × F64)} {as : List (Decision × F64)}
    {x : Decision} {s : F64} (h : (x, s) ∈ recallFirst recalled as) :
    ∃ trigger, ({ x with trigger := trigger }, s) ∈ as := by
  cases recalled with
  | none => exact ⟨x.trigger, h⟩
  | some known =>
    rw [recallFirst] at h
    dsimp only at h
    rw [List.mem_mergeSort, List.mem_map] at h
    obtain ⟨⟨y, s'⟩, hmem, heq⟩ := h
    dsimp only at heq
    split_ifs at heq
    · cases heq
      exact ⟨y.trigger, hmem⟩
    · cases heq
      exact ⟨x.trigger, hmem⟩

/-! ## One cycle -/

/-- What was chosen to be turned off. -/
theorem mem_chooseRemovals {x : Decision} (h : x ∈ d.chooseRemovals input) :
    (∃ k p, (k, p) ∈ input.current.entries ∧ ∃ s, d.removal input k = some (x, s)) ∧
      input.untouchable x = false ∧ input.isPinned x = false := by
  have hmem := List.mem_of_mem_take h
  rw [List.mem_filter, List.mem_map] at hmem
  obtain ⟨⟨⟨y, s⟩, hy, rfl⟩, hallowed⟩ := hmem
  obtain ⟨k, ⟨p, hp⟩, hk⟩ := mem_removals hy
  simp only [Bool.not_eq_true', Bool.or_eq_false_iff] at hallowed
  exact ⟨⟨k, p, hp, s, hk⟩, hallowed⟩

/-- What is tried is an addition, with another text. -/
theorem mem_ranked {x : Decision} {s : F64} (h : (x, s) ∈ d.ranked input) :
    ∃ trigger, ({ x with trigger := trigger }, s) ∈ d.additions input ∧
      input.untouchable x = false := by
  obtain ⟨trigger, hplain⟩ := mem_recallFirst h
  obtain ⟨hadd, hfree⟩ := List.mem_filter.mp hplain
  exact ⟨trigger, hadd, by simpa [DriverInput.untouchable] using hfree⟩

/-- What was chosen to be turned on. -/
theorem mem_chooseAdditions {x : Decision} {room : ℕ} (h : x ∈ d.chooseAdditions input room) :
    x.action = .enable ∧ input.untouchable x = false ∧
      input.current.params x.optimization x.scope = none ∧ d.inCooldown x.place = false ∧
      d.recentlyRetracted x.place = false ∧
      (input.catalogue.profile x.optimization).reversibility ≠ .destructive := by
  rw [chooseAdditions] at h
  dsimp only at h
  split_ifs at h with hnone
  · exact absurd h List.not_mem_nil
  · have hmem := (List.mem_filter.mp (List.mem_of_mem_take h)).1
    obtain ⟨⟨y, s⟩, hy, rfl⟩ := List.mem_map.mp hmem
    obtain ⟨trigger, hadd, hfree⟩ := mem_ranked hy
    obtain ⟨opt, -, hof⟩ := mem_additions hadd
    obtain ⟨-, -, hrev, scope, -, hspec⟩ := mem_additionsOf hof
    obtain ⟨hname, hscope, haction, hparams, hcool, hretracted⟩ := addition_spec hspec
    dsimp only at hname hscope haction
    have hplace : y.place = place opt.metadata.name scope := by rw [Decision.place, hname, hscope]
    refine ⟨haction, hfree, ?_, hplace ▸ hcool, hplace ▸ hretracted, ?_⟩
    · rw [hname, hscope]
      exact hparams
    · rw [hname]
      exact hrev

theorem length_choose_le : (d.choose input).length ≤ maxChangesPerCycle := by
  have hremovals : (d.chooseRemovals input).length ≤ maxChangesPerCycle := by
    rw [chooseRemovals, List.length_take]
    exact min_le_left _ _
  have hadditions : (d.chooseAdditions input
      (maxChangesPerCycle - (d.chooseRemovals input).length)).length ≤
        maxChangesPerCycle - (d.chooseRemovals input).length := by
    rw [chooseAdditions]
    dsimp only
    split_ifs
    · exact Nat.zero_le _
    · rw [List.length_take]
      exact min_le_left _ _
  rw [choose, List.length_append]
  omega

/-! ## Scopes of one cycle -/

theorem places_removals_nodup : ((d.removals input).map (·.1.place)).Nodup := by
  rw [removals, ((List.mergeSort_perm _ _).map _).nodup_iff, List.Nodup, List.pairwise_map,
    List.pairwise_filterMap]
  have hkeys := input.current.enabled.keys_nodup
  rw [OrdMap.keys, List.Nodup, List.pairwise_map] at hkeys
  refine hkeys.imp fun {a b} hne => ?_
  rintro ⟨x, s⟩ hx ⟨y, t⟩ hy heq
  have hxa := (removal_spec hx).1
  have hyb := (removal_spec hy).1
  exact hne (hxa ▸ hyb ▸ heq)

theorem iter_pairwise : input.catalogue.registry.iter.Pairwise fun o o' =>
    o.metadata.name ≠ o'.metadata.name := by
  rw [Registry.iter, List.pairwise_filterMap]
  refine input.catalogue.distinct.imp fun {a b} hne => ?_
  intro o ho o' ho' heq
  have hoa := input.catalogue.registry.named a o ho
  have hob := input.catalogue.registry.named b o' ho'
  exact hne (hoa ▸ hob ▸ heq)

theorem place_of_additionsOf {opt : Optimization OptContext} {a : Decision × F64}
    (h : a ∈ d.additionsOf input opt) :
    ∃ scope ∈ opt.candidateScopes input.ctx, a.1.place = place opt.metadata.name scope := by
  obtain ⟨-, -, -, scope, hscope, ha⟩ := mem_additionsOf h
  obtain ⟨hname, hsame, -⟩ := addition_spec (x := a.1) (s := a.2) ha
  exact ⟨scope, hscope, by rw [Decision.place, hname, hsame]⟩

theorem places_additions_nodup
    (hscopes : ∀ opt ∈ input.catalogue.registry.iter, (opt.candidateScopes input.ctx).Nodup) :
    ((d.additions input).map (·.1.place)).Nodup := by
  rw [additions, ((List.mergeSort_perm _ _).map _).nodup_iff, List.Nodup, List.pairwise_map,
    List.pairwise_flatMap]
  constructor
  · intro opt hopt
    rw [additionsOf]
    split_ifs
    · exact List.Pairwise.nil
    · exact List.Pairwise.nil
    · exact List.Pairwise.nil
    · rw [List.pairwise_filterMap]
      refine (hscopes opt hopt).imp fun {a b} hne => ?_
      intro x hx y hy heq
      obtain ⟨hxn, hxs, -⟩ := addition_spec (x := x.1) (s := x.2) hx
      obtain ⟨hyn, hys, -⟩ := addition_spec (x := y.1) (s := y.2) hy
      rw [Decision.place, Decision.place, place_inj] at heq
      exact hne (hxs ▸ hys ▸ heq.2)
  · refine iter_pairwise.imp fun {o o'} hne => ?_
    intro x hx y hy heq
    obtain ⟨a, -, ha⟩ := place_of_additionsOf hx
    obtain ⟨b, -, hb⟩ := place_of_additionsOf hy
    rw [ha, hb, place_inj] at heq
    exact hne heq.1

theorem places_recallFirst (recalled : Option (OptimizationConfig × F64))
    (as : List (Decision × F64)) :
    ((recallFirst recalled as).map (·.1.place)).Perm (as.map (·.1.place)) := by
  cases recalled with
  | none => exact List.Perm.refl _
  | some known =>
    rw [recallFirst]
    dsimp only
    refine ((List.mergeSort_perm _ _).map _).trans ?_
    rw [List.map_map]
    apply List.Perm.of_eq
    apply List.map_congr_left
    intro a _
    dsimp only [Function.comp]
    split_ifs <;> rfl

theorem places_map (as : List (Decision × F64)) :
    as.map (·.1.place) = (as.map (·.1)).map Decision.place := by
  rw [List.map_map]
  rfl

/-- No scope is decided twice in a cycle. -/
theorem places_choose_nodup
    (hscopes : ∀ opt ∈ input.catalogue.registry.iter, (opt.candidateScopes input.ctx).Nodup) :
    ((d.choose input).map Decision.place).Nodup := by
  rw [choose, List.map_append, List.nodup_append]
  refine ⟨?_, ?_, ?_⟩
  · have hall : ((d.removals input).map (·.1.place)).Nodup := places_removals_nodup
    rw [places_map] at hall
    exact hall.sublist (((List.take_sublist _ _).trans List.filter_sublist).map _)
  · have hadditions := (places_additions_nodup (d := d) hscopes).sublist
      ((List.filter_sublist (p := fun a => !input.untouchable a.1)).map _)
    have hrecall := ((places_recallFirst (d.memory.recall (.of input.telemetry)) _).nodup_iff).mpr
      hadditions
    rw [places_map] at hrecall
    rw [chooseAdditions]
    dsimp only
    split_ifs
    · exact List.nodup_nil
    · exact hrecall.sublist (((List.take_sublist _ _).trans List.filter_sublist).map _)
  · intro a ha b hb heq
    obtain ⟨x, hx, rfl⟩ := List.mem_map.mp ha
    obtain ⟨y, hy, rfl⟩ := List.mem_map.mp hb
    obtain ⟨⟨k, p, hmem, s, hremoval⟩, -⟩ := mem_chooseRemovals hx
    obtain ⟨-, -, hparams, -⟩ := mem_chooseAdditions hy
    have hk := (removal_spec hremoval).1
    have hget := (OrdMap.mem_entries input.current.enabled k p).mp hmem
    rw [OptimizationConfig.params, ← Decision.place, ← heq, hk, hget] at hparams
    cases hparams

/-! ## What a cycle leaves behind -/

/-- The place was entered in this cycle or a later one. -/
def Since (m : OrdMap Place ℕ) (k : Place) (c : ℕ) : Prop := ∃ c', m.get k = some c' ∧ c ≤ c'

theorem Since.insert {m : OrdMap Place ℕ} {k : Place} {c : ℕ} (h : Since m k c) (k' : Place) {c' : ℕ}
    (hc : c ≤ c') : Since (m.insert k' c') k c := by
  rw [Since, OrdMap.get_insert]
  split_ifs
  · exact ⟨c', rfl, hc⟩
  · exact h

theorem Since.self (m : OrdMap Place ℕ) (k : Place) (c : ℕ) : Since (m.insert k c) k c :=
  ⟨c, OrdMap.get_insert_self m k c, le_rfl⟩

@[simp] theorem cycles_note (now : Metrics) (d : AdaptiveDriver) (x : Decision) :
    (note now d x).cycles = d.cycles := by
  rw [note]
  cases x.action with
  | enable => rfl
  | disable =>
    dsimp only
    split_ifs <;> rfl
  | retune => rfl

theorem lastChanged_note (now : Metrics) (d : AdaptiveDriver) (x : Decision) :
    (note now d x).lastChanged = d.lastChanged.insert x.place d.cycles := by
  rw [note]
  cases x.action with
  | enable => rfl
  | disable =>
    dsimp only
    split_ifs <;> rfl
  | retune => rfl

theorem retracted_note (now : Metrics) (d : AdaptiveDriver) (x : Decision) :
    (note now d x).retracted = if x.action = .disable ∧ evidenceBased x.trigger = true then
      d.retracted.insert x.place d.cycles else d.retracted := by
  rw [note]
  cases x.action with
  | enable => rfl
  | disable => by_cases h : evidenceBased x.trigger = true <;> simp [h]
  | retune => rfl

theorem cycles_notes (now : Metrics) (xs : List Decision) (d : AdaptiveDriver) :
    (xs.foldl (note now) d).cycles = d.cycles := by
  induction xs generalizing d with
  | nil => rfl
  | cons x xs ih => rw [List.foldl_cons, ih, cycles_note]

theorem since_lastChanged_notes (now : Metrics) {k : Place} {c : ℕ} {xs : List Decision}
    {d : AdaptiveDriver} (h : Since d.lastChanged k c ∨ ∃ x ∈ xs, x.place = k) (hc : c ≤ d.cycles) :
    Since (xs.foldl (note now) d).lastChanged k c := by
  induction xs generalizing d with
  | nil =>
    rcases h with h | ⟨x, hx, -⟩
    · exact h
    · exact absurd hx List.not_mem_nil
  | cons x xs ih =>
    rw [List.foldl_cons]
    refine ih ?_ ((cycles_note now d x).symm ▸ hc)
    rw [lastChanged_note]
    rcases h with h | ⟨y, hy, rfl⟩
    · exact .inl (h.insert x.place hc)
    · rcases List.mem_cons.mp hy with rfl | hy
      · obtain ⟨c', hget, hle⟩ := Since.self d.lastChanged y.place d.cycles
        exact .inl ⟨c', hget, hc.trans hle⟩
      · exact .inr ⟨y, hy, rfl⟩

theorem since_retracted_notes (now : Metrics) {k : Place} {c : ℕ} {xs : List Decision}
    {d : AdaptiveDriver} (h : Since d.retracted k c ∨
      ∃ x ∈ xs, x.place = k ∧ x.action = .disable ∧ evidenceBased x.trigger = true)
    (hc : c ≤ d.cycles) : Since (xs.foldl (note now) d).retracted k c := by
  induction xs generalizing d with
  | nil =>
    rcases h with h | ⟨x, hx, -⟩
    · exact h
    · exact absurd hx List.not_mem_nil
  | cons x xs ih =>
    rw [List.foldl_cons]
    refine ih ?_ ((cycles_note now d x).symm ▸ hc)
    rw [retracted_note]
    rcases h with h | ⟨y, hy, rfl, hdisable, hevidence⟩
    · split_ifs
      · exact .inl (h.insert x.place hc)
      · exact .inl h
    · rcases List.mem_cons.mp hy with rfl | hy
      · rw [if_pos ⟨hdisable, hevidence⟩]
        obtain ⟨c', hget, hle⟩ := Since.self d.retracted y.place d.cycles
        exact .inl ⟨c', hget, hc.trans hle⟩
      · exact .inr ⟨y, hy, rfl, hdisable, hevidence⟩

theorem settle_keeps (d : AdaptiveDriver) (input : DriverInput) (chosen : List Decision) :
    (d.settle input chosen).cycles = d.cycles ∧
      (d.settle input chosen).lastChanged = d.lastChanged ∧
      (d.settle input chosen).retracted = d.retracted := by
  rw [settle]
  split_ifs <;> exact ⟨rfl, rfl, rfl⟩

theorem cycles_decide (d : AdaptiveDriver) (input : DriverInput) :
    (d.decide input).2.cycles = d.cycles + 1 := by
  rw [decide]
  dsimp only
  split_ifs
  · rfl
  · dsimp only
    rw [cycles_notes, (settle_keeps _ _ _).1]
    rfl

/-- A scope decided in this cycle or entered before is entered from then on. -/
theorem since_lastChanged {k : Place} {c : ℕ} (h : Since d.lastChanged k c ∨
    ∃ x ∈ (d.decide input).1, x.place = k) (hc : c ≤ d.cycles + 1) :
    Since (d.decide input).2.lastChanged k c := by
  rw [decide] at h ⊢
  dsimp only at h ⊢
  split_ifs at h ⊢ with hfew
  · rcases h with h | ⟨x, hx, -⟩
    · exact h
    · exact absurd hx List.not_mem_nil
  · obtain ⟨hcycles, hlast, -⟩ :=
      settle_keeps (d.begun input) input ((d.begun input).choose input)
    exact since_lastChanged_notes _ (hlast ▸ h) (hcycles ▸ hc)

theorem since_retracted {k : Place} {c : ℕ} (h : Since d.retracted k c ∨
    ∃ x ∈ (d.decide input).1, x.place = k ∧ x.action = .disable ∧ evidenceBased x.trigger = true)
    (hc : c ≤ d.cycles + 1) : Since (d.decide input).2.retracted k c := by
  rw [decide] at h ⊢
  dsimp only at h ⊢
  split_ifs at h ⊢ with hfew
  · rcases h with h | ⟨x, hx, -⟩
    · exact h
    · exact absurd hx List.not_mem_nil
  · obtain ⟨hcycles, -, hretracted⟩ :=
      settle_keeps (d.begun input) input ((d.begun input).choose input)
    exact since_retracted_notes _ (hretracted ▸ h) (hcycles ▸ hc)

theorem mem_decide {x : Decision} (h : x ∈ (d.decide input).1) : x ∈ (d.begun input).choose input := by
  rw [decide] at h
  dsimp only at h
  split_ifs at h
  · exact absurd h List.not_mem_nil
  · exact h

theorem not_since_of_cooldown {k : Place} (h : (d.begun input).inCooldown k = false) {c : ℕ}
    (hc : d.cycles + 1 < c + cooldownCycles) : ¬ Since d.lastChanged k c := by
  rintro ⟨c', hget, hle⟩
  rw [inCooldown, show (d.begun input).lastChanged = d.lastChanged from rfl, hget] at h
  have hcycle : ¬ d.cycles + 1 < c' + cooldownCycles := of_decide_eq_false h
  omega

theorem not_since_of_retracted {k : Place} (h : (d.begun input).recentlyRetracted k = false) {c : ℕ}
    (hc : d.cycles + 1 < c + retractionCooldownCycles) : ¬ Since d.retracted k c := by
  rintro ⟨c', hget, hle⟩
  rw [recentlyRetracted, show (d.begun input).retracted = d.retracted from rfl, hget] at h
  have hcycle : ¬ d.cycles + 1 < c' + retractionCooldownCycles := of_decide_eq_false h
  omega

/-- Nothing is decided of a scope in its cooldown. -/
theorem not_inCooldown_of_mem {x : Decision} (h : x ∈ (d.decide input).1) :
    (d.begun input).inCooldown x.place = false := by
  rcases List.mem_append.mp (mem_decide h) with h | h
  · obtain ⟨⟨k, p, -, s, hk⟩, -⟩ := mem_chooseRemovals h
    obtain ⟨hplace, -, hcool, -⟩ := removal_spec hk
    exact hplace ▸ hcool
  · exact (mem_chooseAdditions h).2.2.2.1

/-- Nothing is turned on that was retracted a short while ago. -/
theorem not_retracted_of_mem {x : Decision} (h : x ∈ (d.decide input).1) (hx : x.action = .enable) :
    (d.begun input).recentlyRetracted x.place = false := by
  rcases List.mem_append.mp (mem_decide h) with h | h
  · obtain ⟨⟨k, p, -, s, hk⟩, -⟩ := mem_chooseRemovals h
    rw [(removal_spec hk).2.1] at hx
    cases hx
  · exact (mem_chooseAdditions h).2.2.2.2.1

end AdaptiveDriver

/-! ## Runs -/

open AdaptiveDriver

/-- The driver's state after one call. -/
def tick (input : DriverInput) (d : AdaptiveDriver) : AdaptiveDriver := (d.decide input).2

/-- What a call decides after the calls before it. -/
def batch (start : AdaptiveDriver) (before : List DriverInput) (input : DriverInput) : List Decision :=
  ((run tick start before).decide input).1

theorem cycles_run (start : AdaptiveDriver) (inputs : List DriverInput) :
    (run tick start inputs).cycles = start.cycles + inputs.length := by
  induction inputs generalizing start with
  | nil => rfl
  | cons i inputs ih =>
    rw [run_cons, ih, show (tick i start).cycles = _ from cycles_decide start i, List.length_cons]
    omega

theorem since_lastChanged_run {start : AdaptiveDriver} {k : Place} {c : ℕ}
    (h : Since start.lastChanged k c) (hc : c ≤ start.cycles) (inputs : List DriverInput) :
    Since (run tick start inputs).lastChanged k c := by
  induction inputs generalizing start with
  | nil => exact h
  | cons i inputs ih =>
    refine ih (since_lastChanged (.inl h) (Nat.le_succ_of_le hc)) ?_
    rw [show (tick i start).cycles = _ from cycles_decide start i]
    exact Nat.le_succ_of_le hc

theorem since_retracted_run {start : AdaptiveDriver} {k : Place} {c : ℕ}
    (h : Since start.retracted k c) (hc : c ≤ start.cycles) (inputs : List DriverInput) :
    Since (run tick start inputs).retracted k c := by
  induction inputs generalizing start with
  | nil => exact h
  | cons i inputs ih =>
    refine ih (since_retracted (.inl h) (Nat.le_succ_of_le hc)) ?_
    rw [show (tick i start).cycles = _ from cycles_decide start i]
    exact Nat.le_succ_of_le hc

/-- The decision leaves alone what it must: a scope under experiment, a pinned scope that
it would disable, and an optimization that cannot be undone. -/
structure Allowed (input : DriverInput) (x : Decision) : Prop where
  experiment : (x.optimization, x.scope) ∉ input.underExperiment
  pinned : x.action = .disable → (x.optimization, x.scope) ∉ input.pinned
  reversible : x.action = .enable →
    (input.catalogue.profile x.optimization).reversibility ≠ .destructive

/-- The scope was disabled for a reason that was measured. -/
def Measured (input : DriverInput) (x : Decision) : Prop :=
  x.action = .disable ∧
    ∃ r, unusedReason x.optimization x.scope input.telemetry input.ctx = some r

/-- The share of hits among the probes of a cache, where nothing counted is none. -/
def hitRatio (name : String) (telemetry : Snapshot) : Option F64 :=
  let h := F64.ofInt (countOf telemetry.cacheHits name)
  let m := F64.ofInt (countOf telemetry.cacheMisses name)
  if F64.beq (F64.add h m) .zero then none else some (F64.div h (F64.add h m))

/-- An enabled cache with enough probes and less than one hit in twenty. -/
structure Idle (d : AdaptiveDriver) (input : DriverInput) (name scope : String) : Prop where
  cache : name = "result_cache" ∨ name = "plan_cache"
  enabled : (input.current.params name scope).isSome
  settled : d.inCooldown (place name scope) = false
  probed : minObservations ≤ probes name input.telemetry
  cold : ∃ r, hitRatio name input.telemetry = some r ∧ F64.lt r (.lit 5 100) = true

/-- The driver does not flap in a run of calls. -/
structure FlapFree (start : AdaptiveDriver) (inputs : List DriverInput) : Prop where
  few : ∀ before i, before ++ [i] <+: inputs → (batch start before i).length ≤ maxChangesPerCycle
  allowed : ∀ before i, before ++ [i] <+: inputs → ∀ x ∈ batch start before i, Allowed i x
  apart : ∀ before i, before ++ [i] <+: inputs → ((batch start before i).map Decision.place).Nodup
  cooldown : ∀ before i between j, before ++ i :: between ++ [j] <+: inputs →
    between.length + 1 < cooldownCycles → ∀ x ∈ batch start before i,
      ∀ y ∈ batch start (before ++ i :: between) j, x.place ≠ y.place
  retraction : ∀ before i between j, before ++ i :: between ++ [j] <+: inputs →
    between.length + 1 < retractionCooldownCycles → ∀ x ∈ batch start before i, Measured i x →
      ∀ y ∈ batch start (before ++ i :: between) j, y.action = .enable → x.place ≠ y.place
  candidates : ∀ before i, before ++ [i] <+: inputs → ∀ name scope,
    Idle ((run tick start before).begun i) i name scope →
      ∃ a ∈ ((run tick start before).begun i).removals i,
        a.1.place = place name scope ∧ a.1.action = .disable

/-- No optimization proposes a scope twice, every reason to drop an enabled scope is one
that is recognised as measured, and an enabled cache with enough probes is registered
and was hit at some time. -/
structure DriverInput.Clean (input : DriverInput) : Prop where
  scopes : ∀ opt ∈ input.catalogue.registry.iter, (opt.candidateScopes input.ctx).Nodup
  recognised : ∀ name scope, (input.current.params name scope).isSome → ∀ r,
    unusedReason name scope input.telemetry input.ctx = some r → evidenceBased r = true
  hit : ∀ name scope, name = "result_cache" ∨ name = "plan_cache" →
    (input.current.params name scope).isSome → minObservations ≤ probes name input.telemetry →
      (input.catalogue.registry.info name).isSome ∧ (input.telemetry.cacheHits.get name).isSome

theorem mem_of_prefixed {before inputs : List DriverInput} {i : DriverInput} (h : before ++ [i] <+: inputs) :
    i ∈ inputs := h.subset (List.mem_append_right _ (List.mem_singleton_self i))

/-- The cycle a call was made in, and the one a later call is made in. -/
theorem cycles_between (start : AdaptiveDriver) (before between : List DriverInput) (i : DriverInput) :
    (run tick start (before ++ i :: between)).cycles =
      (run tick start before).cycles + 1 + between.length := by
  rw [cycles_run, cycles_run, List.length_append, List.length_cons]
  omega

theorem not_mem_of_any {ps : List (String × String)} {x : Decision}
    (h : (ps.any fun p => p.1 = x.optimization && p.2 = x.scope) = false) :
    (x.optimization, x.scope) ∉ ps := by
  intro hmem
  have hfound := List.any_eq_false.mp h _ hmem
  simp at hfound

theorem batch_allowed (start : AdaptiveDriver) (before : List DriverInput) (i : DriverInput)
    {x : Decision} (h : x ∈ batch start before i) : Allowed i x := by
  rcases List.mem_append.mp (mem_decide h) with h | h
  · obtain ⟨⟨k, p, -, s, hk⟩, hfree, hpinned⟩ := mem_chooseRemovals h
    refine ⟨not_mem_of_any hfree, fun _ => not_mem_of_any hpinned, fun hx => ?_⟩
    rw [(removal_spec hk).2.1] at hx
    cases hx
  · obtain ⟨haction, hfree, -, -, -, hrev⟩ := mem_chooseAdditions h
    refine ⟨not_mem_of_any hfree, fun hx => ?_, fun _ => hrev⟩
    rw [haction] at hx
    cases hx

theorem batch_cooldown {start : AdaptiveDriver} {before between : List DriverInput} {i j : DriverInput}
    (hshort : between.length + 1 < cooldownCycles) {x y : Decision} (hx : x ∈ batch start before i)
    (hy : y ∈ batch start (before ++ i :: between) j) : x.place ≠ y.place := by
  intro heq
  have hsince := since_lastChanged (.inr ⟨x, hx, heq⟩) le_rfl
  have hlater := since_lastChanged_run hsince (cycles_decide _ i).ge between
  refine not_since_of_cooldown (c := (run tick start before).cycles + 1)
    (not_inCooldown_of_mem hy) ?_ ?_
  · rw [cycles_between]
    omega
  · rw [run_append, run_cons]
    exact hlater

/-- A measured reason is the text of the decision, so it is recognised. -/
theorem evidence_of_measured {start : AdaptiveDriver} {before : List DriverInput} {i : DriverInput}
    (hclean : i.Clean) {x : Decision} (hx : x ∈ batch start before i) (hm : Measured i x) :
    evidenceBased x.trigger = true := by
  obtain ⟨haction, r, hr⟩ := hm
  rcases List.mem_append.mp (mem_decide hx) with h | h
  · obtain ⟨⟨k, p, hmem, s, hk⟩, -⟩ := mem_chooseRemovals h
    obtain ⟨hplace, -, -, hreason⟩ := removal_spec hk
    rw [hreason r hr]
    refine hclean.recognised x.optimization x.scope ?_ r hr
    rw [OptimizationConfig.params, ← Decision.place, hplace,
      (OrdMap.mem_entries i.current.enabled k p).mp hmem]
    rfl
  · rw [(mem_chooseAdditions h).1] at haction
    cases haction

theorem batch_retraction {start : AdaptiveDriver} {before between : List DriverInput}
    {i j : DriverInput} (hclean : i.Clean) (hshort : between.length + 1 < retractionCooldownCycles)
    {x y : Decision} (hx : x ∈ batch start before i) (hm : Measured i x)
    (hy : y ∈ batch start (before ++ i :: between) j) (hye : y.action = .enable) :
    x.place ≠ y.place := by
  intro heq
  have hsince := since_retracted (.inr ⟨x, hx, heq, hm.1, evidence_of_measured hclean hx hm⟩) le_rfl
  have hlater := since_retracted_run hsince (cycles_decide _ i).ge between
  refine not_since_of_retracted (c := (run tick start before).cycles + 1)
    (not_retracted_of_mem hy hye) ?_ ?_
  · rw [cycles_between]
    omega
  · rw [run_append, run_cons]
    exact hlater

theorem lt_not_ge {a b : F64} (h : F64.lt a b = true) : F64.ge a b = false := by
  simp only [F64.lt, F64.gt, Bool.and_eq_true, decide_eq_true_eq] at h
  simp only [F64.ge, Bool.and_eq_false_iff, decide_eq_false_iff_not]
  omega

theorem cacheReason_of_cold {name : String} {telemetry : Snapshot} {r : F64}
    (hhit : (telemetry.cacheHits.get name).isSome) (hprobed : minObservations ≤ probes name telemetry)
    (hratio : hitRatio name telemetry = some r) (hcold : F64.lt r (.lit 5 100) = true) :
    (cacheReason name telemetry).isSome := by
  obtain ⟨hits, hget⟩ := Option.isSome_iff_exists.mp hhit
  have hrate : telemetry.hitRate name = some r := by
    have hcount : countOf telemetry.cacheHits name = hits := by rw [countOf, hget, Option.getD_some]
    rw [← hratio, hitRatio, Snapshot.hitRate, hget, hcount]
    rfl
  rw [cacheReason, hrate]
  simp [lt_not_ge hcold, Nat.not_lt.mpr hprobed]

theorem idle_removed {d : AdaptiveDriver} {i : DriverInput} (hclean : i.Clean) {name scope : String}
    (h : Idle d i name scope) :
    ∃ a ∈ d.removals i, a.1.place = place name scope ∧ a.1.action = .disable := by
  obtain ⟨hregistered, hhit⟩ := hclean.hit name scope h.cache h.enabled h.probed
  obtain ⟨m, hinfo⟩ := Option.isSome_iff_exists.mp hregistered
  obtain ⟨p, hparams⟩ := Option.isSome_iff_exists.mp h.enabled
  obtain ⟨r, hratio, hcold⟩ := h.cold
  have hreason : ∃ reason, unusedReason name scope i.telemetry i.ctx = some reason := by
    apply Option.isSome_iff_exists.mp
    have hcache := cacheReason_of_cold hhit h.probed hratio hcold
    rw [unusedReason]
    rcases h.cache with rfl | rfl
    · exact hcache
    · exact hcache
  obtain ⟨reason, hreason⟩ := hreason
  have hremoval : d.removal i (place name scope) =
      some (.propose m.name scope .disable reason, .negInfinity) := by
    have hplace : ofLex (place name scope) = (name, scope) := rfl
    simp only [removal, hplace, h.settled, Bool.false_eq_true, if_false, hinfo, hreason]
  refine ⟨(.propose m.name scope .disable reason, .negInfinity), ?_, (removal_spec hremoval).1,
    (removal_spec hremoval).2.1⟩
  rw [removals, List.mem_mergeSort, List.mem_filterMap]
  exact ⟨(place name scope, p), (OrdMap.mem_entries _ _ _).mpr hparams, hremoval⟩

/-- Over any run of calls that are clean the driver does not flap. -/
theorem steady_of_clean (costs : CostModel) {inputs : List DriverInput} (h : ∀ i ∈ inputs, i.Clean) :
    FlapFree (.withModel costs) inputs where
  few before i _ := by
    rw [batch, AdaptiveDriver.decide]
    dsimp only
    split_ifs
    · exact Nat.zero_le _
    · exact length_choose_le
  allowed before i _ x hx := batch_allowed _ before i hx
  apart before i hi := by
    rw [batch, AdaptiveDriver.decide]
    dsimp only
    split_ifs
    · exact List.nodup_nil
    · exact places_choose_nodup (h i (mem_of_prefixed hi)).scopes
  cooldown before i between j _ hshort x hx y hy := batch_cooldown hshort hx hy
  retraction before i between j hj hshort x hx hm y hy hye :=
    batch_retraction (h i (hj.subset (by simp))) hshort hx hm hy hye
  candidates before i hi name scope hidle := idle_removed (h i (mem_of_prefixed hi)) hidle

/-! ## An index that is too dear -/

def autoIndex : Optimization OptContext where
  metadata :=
    { name := "auto_index", scopeKind := .perField, requiresGuarantees := .any
      prerequisites := [], conflictsWith := [] }
  applicability _ := .applicable
  candidateScopes _ := ["users.age"]
  ramBytes _ := 0
  planEnable _ _ _ := .empty
  planDisable _ _ _ := .empty

def resultCache : Optimization OptContext where
  metadata :=
    { name := "result_cache", scopeKind := .global, requiresGuarantees := .any
      prerequisites := [], conflictsWith := [] }
  applicability _ := .applicable
  candidateScopes _ := ["global"]
  ramBytes _ := 0
  planEnable _ _ _ := .empty
  planDisable _ _ _ := .empty

/-- Twice as fast, and not very sure of it. -/
def twiceAsFast (ramBytes : ℤ) : CostEstimate :=
  { p50Delta := .lit 1 2, p99Delta := .lit 1 2, throughputDelta := .ofInt 2, ramBytes
    storageBytes := 0, cpuFrac := .zero, build := ⟨.zero, true⟩, confidence := .lit 1 2 }

/-- One optimization and nothing else. -/
def catalogueOf (opt : Optimization OptContext) : Catalogue where
  registry :=
    { order := [opt.metadata.name]
      items := OrdMap.insert ∅ opt.metadata.name opt
      named := by
        intro name o h
        rw [OrdMap.get_insert] at h
        split_ifs at h with hname
        · cases h
          exact hname.symm
        · cases h
      listed := by
        intro name
        rw [OrdMap.get_insert]
        by_cases hname : name = opt.metadata.name <;> simp [hname] }
  profile _ := ⟨"", .instant, ⟨0, 0, 0⟩, fun ctx => twiceAsFast (opt.ramBytes ctx)⟩
  distinct := List.nodup_singleton _
  estimated := by
    intro name o h ctx
    change (OrdMap.insert ∅ opt.metadata.name opt).get name = some o at h
    rw [OrdMap.get_insert] at h
    split_ifs at h
    · cases h
      rfl
    · cases h

def evenPolicy : RankedPolicy :=
  { mode := .adaptive, guarantees := ⟨.strict, .strict⟩, constraints := ⟨none⟩, priority := ⟨5, 5, 5⟩ }

/-- Six hundred reads, this many uses of the index and writes to it, and probes of the
result cache that all missed. -/
def readings (uses upkeep misses : ℕ) : Snapshot :=
  { Counts.none with
    perOp := ⟨[(.get, ⟨600, 600, .new⟩)], by decide⟩
    cacheMisses := ⟨[("result_cache", misses)], List.nodup_singleton _⟩
    indexUsage := ⟨[(("users", "age"), uses)], List.nodup_singleton _⟩
    indexMaintenance := ⟨[(("users", "age"), upkeep)], List.nodup_singleton _⟩ }

def reading (opt : Optimization OptContext) (current : OptimizationConfig) (telemetry : Snapshot) :
    DriverInput :=
  { catalogue := catalogueOf opt, current, policy := evenPolicy, telemetry
    ctx :=
      { policy := evenPolicy, telemetry, collections := [("users", 600)], filteredFields := []
        fixedSizeCollections := [], maxIds := [], existingIndexes := [("users", "age", .hash)]
        currentBytes := 1000000 }
    pinned := [], underExperiment := [] }

def withIndex : OptimizationConfig := OptimizationConfig.new.enable "auto_index" "users.age" .new

def withCache : OptimizationConfig := OptimizationConfig.new.enable "result_cache" "global" .new

def dearIndex : DriverInput := reading autoIndex withIndex (readings 10 10000 0)

def noIndex : DriverInput := reading autoIndex .new (readings 0 0 0)

def unusedIndex : DriverInput := reading autoIndex withIndex (readings 0 20 0)

theorem unusedIndex_clean : unusedIndex.Clean := by
  have honly : ∀ name scope, (unusedIndex.current.params name scope).isSome →
      name = "auto_index" ∧ scope = "users.age" := by
    intro name scope h
    rw [show unusedIndex.current = OptimizationConfig.new.enable "auto_index" "users.age" .new from rfl,
      OptimizationConfig.params_enable] at h
    split_ifs at h with hplace
    · exact hplace
    · cases h
  constructor
  · intro opt hopt
    have hone : opt ∈ [autoIndex] := hopt
    rw [List.mem_singleton.mp hone]
    exact List.nodup_singleton _
  · intro name scope h r hr
    obtain ⟨rfl, rfl⟩ := honly name scope h
    have htext : ((unusedReason "auto_index" "users.age" unusedIndex.telemetry unusedIndex.ctx).map
        evidenceBased) = some true := by decide +kernel
    rw [hr] at htext
    exact Option.some_injective _ htext
  · intro name scope hcache h
    obtain ⟨rfl, -⟩ := honly name scope h
    rcases hcache with hname | hname
    · exact absurd hname (by decide)
    · exact absurd hname (by decide)

/-- An index that nothing uses is dropped and stays away. -/
theorem unused_index_settles : FlapFree (.withModel .new) [unusedIndex, unusedIndex] :=
  steady_of_clean .new fun i hi => by
    rcases List.mem_pair.mp hi with rfl | rfl
    · exact unusedIndex_clean
    · exact unusedIndex_clean

/-- The index is dropped for its upkeep, and built again three cycles later. -/
theorem dear_index_returns : ¬ FlapFree (.withModel .new) [dearIndex, noIndex, noIndex, noIndex] := by
  intro h
  have hdropped : ∃ x ∈ batch (.withModel .new) [] dearIndex,
      x.place = place "auto_index" "users.age" ∧ x.action = .disable ∧
        (unusedReason x.optimization x.scope dearIndex.telemetry dearIndex.ctx).isSome := by
    decide +kernel
  have hback : ∃ y ∈ batch (.withModel .new) [dearIndex, noIndex, noIndex] noIndex,
      y.place = place "auto_index" "users.age" ∧ y.action = .enable := by
    decide +kernel
  obtain ⟨x, hx, hplace, haction, hreason⟩ := hdropped
  obtain ⟨y, hy, hsame, henable⟩ := hback
  exact h.retraction [] dearIndex [noIndex, noIndex] noIndex (List.prefix_refl _) (by decide) x hx
    ⟨haction, Option.isSome_iff_exists.mp hreason⟩ y hy henable (hplace.trans hsame.symm)

/-- A cache that was never hit is kept. -/
theorem cold_cache_kept :
    ¬ FlapFree (.withModel .new) [reading resultCache withCache (readings 0 0 600)] := by
  intro h
  have hidle : Idle ((AdaptiveDriver.withModel .new).begun
      (reading resultCache withCache (readings 0 0 600)))
      (reading resultCache withCache (readings 0 0 600)) "result_cache" "global" :=
    ⟨.inl rfl, by decide +kernel, by decide +kernel, by decide +kernel,
      ⟨.zero, by decide +kernel, by decide +kernel⟩⟩
  obtain ⟨a, ha, -⟩ := h.candidates [] _ (List.prefix_refl _) "result_cache" "global" hidle
  have hnone : ((AdaptiveDriver.withModel .new).begun
      (reading resultCache withCache (readings 0 0 600))).removals
        (reading resultCache withCache (readings 0 0 600)) = [] := by decide +kernel
  rw [show run tick (AdaptiveDriver.withModel .new) [] = .withModel .new from rfl, hnone] at ha
  exact List.not_mem_nil ha

theorem driver_flaps :
    ¬ FlapFree (.withModel .new) [dearIndex, noIndex, noIndex, noIndex] ∧
      ¬ FlapFree (.withModel .new) [reading resultCache withCache (readings 0 0 600)] :=
  ⟨dear_index_returns, cold_cache_kept⟩

end Adabt.Opt
