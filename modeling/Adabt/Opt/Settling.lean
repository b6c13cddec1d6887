import Adabt.Opt.Driver

/-! # What the manual driver settles on

One cycle carries out every proposed decision. Between the configuration it
leaves and the target there is nothing left to propose, except where a blanket
request was expanded: its places are held one by one, while the target holds the
request. -/

set_option autoImplicit false

namespace Adabt.Opt
open Adabt.Core Adabt.Library

open ManualDriver (clearBlanket applyOverride targetOf expand enables disables retunes)

/-! ## The target -/

/-- What the policy asks for at one place: the last override about it decides,
and without one the level, unless an override names another place. -/
def asked (level : ℕ) (overrides : List Override) (name scope : String) : Option Params :=
  match overrides.reverse.find? fun ov => ov.name = name ∧ ov.scope = scope with
  | some ov => if ov.enabled then some (.ofList ov.params) else none
  | none =>
    if scope = "global" ∧ ∀ ov ∈ overrides, ov.name = name → ov.scope = "global" then
      (configForLevel level).params name "global"
    else none

theorem overwrites_clearBlanket (name scope : String) :
    Overwrites clearBlanket (·.params name scope)
      (fun ov => ov.name = name ∧ ov.scope ≠ "global" ∧ scope = "global") fun _ => none where
  hit := by
    intro c ov ⟨hn, hs, hg⟩
    rw [clearBlanket, if_pos hs, OptimizationConfig.params_disable, if_pos ⟨hn.symm, hg⟩]
  miss := by
    intro c ov h
    rw [clearBlanket]
    split_ifs with hs
    · rw [OptimizationConfig.params_disable, if_neg fun hn => h ⟨hn.1.symm, hs, hn.2⟩]
    · rfl

theorem overwrites_applyOverride (name scope : String) :
    Overwrites applyOverride (·.params name scope) (fun ov => ov.name = name ∧ ov.scope = scope)
      fun ov => if ov.enabled then some (.ofList ov.params) else none where
  hit := by
    intro c ov ⟨hn, hs⟩
    rw [applyOverride]
    split_ifs with he
    · rw [OptimizationConfig.params_enable, if_pos ⟨hn.symm, hs.symm⟩]
    · rw [OptimizationConfig.params_disable, if_pos ⟨hn.symm, hs.symm⟩]
  miss := by
    intro c ov h
    rw [applyOverride]
    split_ifs with he
    · rw [OptimizationConfig.params_enable, if_neg fun hn => h ⟨hn.1.symm, hn.2.symm⟩]
    · rw [OptimizationConfig.params_disable, if_neg fun hn => h ⟨hn.1.symm, hn.2.symm⟩]

theorem params_cleared (level : ℕ) (overrides : List Override) (name scope : String) :
    (overrides.foldl clearBlanket (configForLevel level)).params name scope =
      if scope = "global" ∧ ∀ ov ∈ overrides, ov.name = name → ov.scope = "global" then
        (configForLevel level).params name "global"
      else none := by
  have hw := overwrites_clearBlanket name scope
  by_cases hs : scope = "global"
  · by_cases hall : ∀ ov ∈ overrides, ov.name = name → ov.scope = "global"
    · rw [if_pos ⟨hs, hall⟩, hw.untouched fun ov hov h => h.2.1 (hall ov hov h.1), hs]
    · rw [if_neg fun h => hall h.2]
      push Not at hall
      obtain ⟨ov, hov, hn, hg⟩ := hall
      exact hw.constant (fun _ _ _ => rfl) ⟨ov, hov, hn, hg, hs⟩ _
  · rw [if_neg fun h => hs h.1, hw.untouched fun ov _ h => hs h.2.2]
    exact configForLevel_scope level hs

theorem targetOf_params (level : ℕ) (overrides : List Override) (name scope : String) :
    (targetOf level overrides).params name scope = asked level overrides name scope := by
  have hw := overwrites_applyOverride name scope
  rw [targetOf, asked]
  generalize hf : overrides.reverse.find? (fun ov => ov.name = name ∧ ov.scope = scope) = found
  cases found with
  | none =>
    rw [List.find?_eq_none] at hf
    rw [hw.untouched fun ov hov => by simpa using hf ov (List.mem_reverse.mpr hov), params_cleared]
  | some ov =>
    obtain ⟨hov, as, bs, hsplit, has⟩ := List.find?_eq_some_iff_append.mp hf
    have hback : overrides = bs.reverse ++ ov :: as.reverse := by
      rw [← List.reverse_reverse overrides, hsplit]
      simp
    generalize overrides.foldl clearBlanket (configForLevel level) = c
    rw [hback]
    apply hw.last (by simpa using hov)
    intro b hb
    have := has b (List.mem_reverse.mp hb)
    grind

/-! ## One cycle -/

variable {Ctx : Type} {r : Registry Ctx} {level : ℕ} {overrides : List Override}

/-- One cycle carries out every decision the driver proposes. -/
def cycle (r : Registry Ctx) (mode : Mode) (ctx : Ctx) (c : OptimizationConfig) :
    OptimizationConfig :=
  (ManualDriver.decide r c mode ctx).foldl OptimizationConfig.carryOut c

def Decision.leaves (d : Decision) : Option Params :=
  if d.action = .disable then none else some d.params

theorem overwrites_carryOut (name scope : String) :
    Overwrites OptimizationConfig.carryOut (·.params name scope)
      (fun d => name = d.optimization ∧ scope = d.scope) Decision.leaves where
  hit := by
    intro c d h
    unfold OptimizationConfig.carryOut Decision.leaves
    cases d.action <;>
      simp [OptimizationConfig.params_enable, OptimizationConfig.params_disable, h.1, h.2]
  miss := by
    intro c d h
    unfold OptimizationConfig.carryOut
    cases d.action <;>
      simp only [OptimizationConfig.params_enable, OptimizationConfig.params_disable, if_neg h]

/-- The request at `k` is carried out at this place. -/
def Serves (r : Registry Ctx) (ctx : Ctx) (name scope : String) (k : Place) : Prop :=
  (ofLex k).1 = name ∧ ∃ opt, r.get name = some opt ∧ scope ∈ expand opt ctx (ofLex k).2

theorem overwrites_enables (r : Registry Ctx) (ctx : Ctx) (level : ℕ) (t : OptimizationConfig)
    (name scope : String) :
    Overwrites (fun c k => (enables r ctx level t k).foldl OptimizationConfig.carryOut c)
      (·.params name scope) (Serves r ctx name scope)
      fun k => some ((t.params name (ofLex k).2).getD .new) where
  hit := by
    intro c k ⟨hk, opt, hopt, hs⟩
    apply (overwrites_carryOut name scope).constant
    · intro d hd _
      rw [enables] at hd
      simp only [hk, hopt, List.mem_map] at hd
      obtain ⟨s, -, rfl⟩ := hd
      rfl
    · rw [enables]
      simp only [hk, hopt, List.mem_map]
      exact ⟨_, ⟨scope, hs, rfl⟩, (r.named name opt hopt).symm, rfl⟩
  miss := by
    intro c k h
    apply (overwrites_carryOut name scope).untouched
    intro d hd ⟨hn, hs⟩
    rw [enables] at hd
    cases hopt : r.get (ofLex k).1 with
    | none => simp [hopt] at hd
    | some opt =>
      simp only [hopt, List.mem_map] at hd
      obtain ⟨s, hmem, rfl⟩ := hd
      have hname : (ofLex k).1 = name := (r.named _ opt hopt).symm.trans hn.symm
      exact h ⟨hname, opt, hname ▸ hopt, hs ▸ hmem⟩

/-- The configuration once the enabling decisions are carried out. -/
def enabled (r : Registry Ctx) (ctx : Ctx) (level : ℕ) (overrides : List Override)
    (c : OptimizationConfig) : OptimizationConfig :=
  ((c.diff (targetOf level overrides)).added).foldl
    (fun c k => (enables r ctx level (targetOf level overrides) k).foldl
      OptimizationConfig.carryOut c) c

/-- The decisions after the enabling ones. -/
def rest (r : Registry Ctx) (level : ℕ) (overrides : List Override) (c : OptimizationConfig) :
    List Decision :=
  let t := targetOf level overrides
  (c.diff t).removed.flatMap (disables r level) ++ (c.diff t).retuned.flatMap (retunes r level t)

theorem cycle_eq (ctx : Ctx) (c : OptimizationConfig) :
    cycle r (.manual level overrides) ctx c =
      (rest r level overrides c).foldl OptimizationConfig.carryOut
        (enabled r ctx level overrides c) := by
  rw [cycle, ManualDriver.decide, List.append_assoc, List.foldl_append, List.foldl_flatMap]
  rfl

theorem mem_disables {k : Place} {d : Decision} (h : d ∈ disables r level k) :
    place d.optimization d.scope = k ∧ d.action = .disable ∧ (r.get d.optimization).isSome := by
  rw [disables] at h
  cases hopt : r.get (ofLex k).1 with
  | none => simp [Registry.info, hopt] at h
  | some opt =>
    simp only [Registry.info, hopt, Option.map_some, List.mem_singleton] at h
    subst h
    have hn := r.named _ opt hopt
    exact ⟨by rw [hn]; rfl, rfl, by simp [hn, hopt]⟩

theorem mem_retunes {t : OptimizationConfig} {k : Place} {d : Decision}
    (h : d ∈ retunes r level t k) :
    place d.optimization d.scope = k ∧ d.action = .retune ∧
      d.params = (t.params d.optimization d.scope).getD .new ∧ (r.get d.optimization).isSome := by
  rw [retunes] at h
  cases hopt : r.get (ofLex k).1 with
  | none => simp [Registry.info, hopt] at h
  | some opt =>
    simp only [Registry.info, hopt, Option.map_some, List.mem_singleton] at h
    subst h
    have hn := r.named _ opt hopt
    exact ⟨by rw [hn]; rfl, rfl, by rw [hn], by simp [hn, hopt]⟩

theorem disables_ne_nil {name : String} (h : (r.get name).isSome) (scope : String) :
    ∃ d ∈ disables r level (place name scope), d.optimization = name ∧ d.scope = scope := by
  obtain ⟨opt, hopt⟩ := Option.isSome_iff_exists.mp h
  have hinfo : r.info name = some opt.metadata := by rw [Registry.info, hopt, Option.map_some]
  rw [disables]
  simp only [place, ofLex_toLex, hinfo]
  exact ⟨_, List.mem_singleton_self _, r.named name opt hopt, rfl⟩

theorem retunes_ne_nil {name : String} (h : (r.get name).isSome) (t : OptimizationConfig)
    (scope : String) :
    ∃ d ∈ retunes r level t (place name scope), d.optimization = name ∧ d.scope = scope := by
  obtain ⟨opt, hopt⟩ := Option.isSome_iff_exists.mp h
  have hinfo : r.info name = some opt.metadata := by rw [Registry.info, hopt, Option.map_some]
  rw [retunes]
  simp only [place, ofLex_toLex, hinfo]
  exact ⟨_, List.mem_singleton_self _, r.named name opt hopt, rfl⟩

/-- Every later decision brings the place it is about to what is asked for, and they are
about the places where the configuration holds something else. -/
theorem mem_rest {c : OptimizationConfig} {d : Decision} (h : d ∈ rest r level overrides c) :
    (r.get d.optimization).isSome ∧ c.params d.optimization d.scope ≠ none ∧
      c.params d.optimization d.scope ≠ asked level overrides d.optimization d.scope ∧
      d.leaves = asked level overrides d.optimization d.scope := by
  rw [rest, List.mem_append, List.mem_flatMap, List.mem_flatMap] at h
  rcases h with ⟨k, hk, hd⟩ | ⟨k, hk, hd⟩
  · have hdis := mem_disables hd
    rw [← hdis.1, OptimizationConfig.mem_removed, targetOf_params] at hk
    rw [Decision.leaves, if_pos hdis.2.1, hk.2]
    exact ⟨hdis.2.2, hk.1, hk.1, rfl⟩
  · have hret := mem_retunes hd
    rw [← hret.1, OptimizationConfig.mem_retuned, targetOf_params] at hk
    rw [Decision.leaves, if_neg (by simp [hret.2.1]), hret.2.2.1, targetOf_params]
    obtain ⟨p, hp⟩ := Option.ne_none_iff_exists'.mp hk.2.1
    refine ⟨hret.2.2.2, hk.1, hk.2.2, ?_⟩
    rw [hp, Option.getD_some]

theorem exists_rest {c : OptimizationConfig} {name scope : String} (hn : (r.get name).isSome)
    (hc : c.params name scope ≠ none)
    (hne : c.params name scope ≠ asked level overrides name scope) :
    ∃ d ∈ rest r level overrides c, d.optimization = name ∧ d.scope = scope := by
  simp only [rest, List.mem_append, List.mem_flatMap]
  by_cases ht : asked level overrides name scope = none
  · obtain ⟨d, hd, hplace⟩ := @disables_ne_nil _ _ level _ hn scope
    have hmem : place name scope ∈ (c.diff (targetOf level overrides)).removed := by
      rw [OptimizationConfig.mem_removed, targetOf_params]
      exact ⟨hc, ht⟩
    exact ⟨d, .inl ⟨_, hmem, hd⟩, hplace⟩
  · obtain ⟨d, hd, hplace⟩ :=
      @retunes_ne_nil _ _ level _ hn (targetOf level overrides) scope
    have hmem : place name scope ∈ (c.diff (targetOf level overrides)).retuned := by
      rw [OptimizationConfig.mem_retuned, targetOf_params]
      exact ⟨hc, ht, hne⟩
    exact ⟨d, .inr ⟨_, hmem, hd⟩, hplace⟩

/-- What one cycle leaves at a place of a registered optimization. -/
theorem params_cycle {name : String} (hn : (r.get name).isSome) (ctx : Ctx)
    (c : OptimizationConfig) (scope : String) :
    (cycle r (.manual level overrides) ctx c).params name scope =
      if c.params name scope ≠ none ∧
          c.params name scope ≠ asked level overrides name scope then
        asked level overrides name scope
      else (enabled r ctx level overrides c).params name scope := by
  rw [cycle_eq]
  split_ifs with h
  · apply (overwrites_carryOut name scope).constant
    · intro d hd ⟨hdn, hds⟩
      rw [hdn, hds]
      exact (mem_rest hd).2.2.2
    · obtain ⟨d, hd, hdn, hds⟩ := exists_rest hn h.1 h.2
      exact ⟨d, hd, hdn.symm, hds.symm⟩
  · apply (overwrites_carryOut name scope).untouched
    intro d hd ⟨hdn, hds⟩
    have := mem_rest hd
    rw [← hdn, ← hds] at this
    exact h ⟨this.2.1, this.2.2.1⟩

/-- Nothing is left to propose when every place holds what is asked for there, or is a
blanket request that has nowhere to be carried out. -/
theorem decide_eq_nil_iff (ctx : Ctx) (c : OptimizationConfig) :
    ManualDriver.decide r c (.manual level overrides) ctx = [] ↔
      ∀ name opt, r.get name = some opt → ∀ scope,
        c.params name scope = asked level overrides name scope ∨
          c.params name scope = none ∧ expand opt ctx scope = [] := by
  rw [ManualDriver.decide, List.append_assoc, List.append_eq_nil_iff]
  change _ ∧ rest r level overrides c = [] ↔ _
  constructor
  · intro ⟨henables, hrest⟩ name opt hopt scope
    by_cases heq : c.params name scope = asked level overrides name scope
    · exact .inl heq
    · right
      have hnone : c.params name scope = none := by
        by_contra hc
        obtain ⟨d, hd, -⟩ := exists_rest (r := r) (by rw [hopt, Option.isSome_some]) hc heq
        rw [hrest] at hd
        exact absurd hd List.not_mem_nil
      have hmem : place name scope ∈ (c.diff (targetOf level overrides)).added := by
        rw [OptimizationConfig.mem_added, targetOf_params]
        exact ⟨hnone, fun h => heq (hnone.trans h.symm)⟩
      have hnil := List.flatMap_eq_nil_iff.mp henables _ hmem
      rw [enables] at hnil
      simp only [place, ofLex_toLex, hopt, List.map_eq_nil_iff] at hnil
      exact ⟨hnone, hnil⟩
  · intro h
    constructor
    · rw [List.flatMap_eq_nil_iff]
      intro k hk
      rw [enables]
      cases hopt : r.get (ofLex k).1 with
      | none => simp [hopt]
      | some opt =>
        have hadded := (OptimizationConfig.mem_added c _ (ofLex k).1 (ofLex k).2).mp hk
        rw [targetOf_params] at hadded
        simp only [hopt, List.map_eq_nil_iff]
        rcases h _ opt hopt (ofLex k).2 with heq | ⟨-, hnil⟩
        · exact absurd (heq.symm.trans hadded.1) hadded.2
        · exact hnil
    · rw [List.eq_nil_iff_forall_not_mem]
      intro d hd
      obtain ⟨hn, hc, hne, -⟩ := mem_rest hd
      obtain ⟨opt, hopt⟩ := Option.isSome_iff_exists.mp hn
      rcases h _ opt hopt d.scope with heq | ⟨hnone, -⟩
      · exact hne heq
      · exact hc hnone

/-! ## Where a cycle leaves a request -/

section
variable {name : String} {opt : Optimization Ctx} {ctx : Ctx} {c : OptimizationConfig}

theorem enabled_untouched (hopt : r.get name = some opt) {scope : String}
    (h : ∀ s, c.params name s = none → asked level overrides name s ≠ none →
      scope ∉ expand opt ctx s) :
    (enabled r ctx level overrides c).params name scope = c.params name scope := by
  apply (overwrites_enables r ctx level _ name scope).untouched
  intro k hk ⟨hname, opt', hopt', hmem⟩
  have hadded := (OptimizationConfig.mem_added c _ (ofLex k).1 (ofLex k).2).mp hk
  rw [targetOf_params, hname] at hadded
  obtain rfl := Option.some.inj (hopt.symm.trans hopt')
  exact h _ hadded.1 hadded.2 hmem

/-- Of the requests carried out at one place, the one with the greatest scope decides. -/
theorem enabled_greatest (hopt : r.get name = some opt) {scope s : String} {p : Params}
    (hnone : c.params name s = none) (hp : asked level overrides name s = some p)
    (hmem : scope ∈ expand opt ctx s)
    (hmax : ∀ s', c.params name s' = none → asked level overrides name s' ≠ none →
      scope ∈ expand opt ctx s' → s' ≤ s) :
    (enabled r ctx level overrides c).params name scope = some p := by
  have hw := overwrites_enables r ctx level (targetOf level overrides) name scope
  have hsorted : (c.diff (targetOf level overrides)).added.Pairwise (· < ·) :=
    (List.pairwise_map.mpr (targetOf level overrides).enabled.sorted).sublist List.filter_sublist
  have hadded : place name s ∈ (c.diff (targetOf level overrides)).added := by
    rw [OptimizationConfig.mem_added, targetOf_params, hp]
    exact ⟨hnone, by simp⟩
  have hlast := hw.greatest hsorted hadded ⟨rfl, opt, hopt, hmem⟩ (fun k hk hserves => ?_) c
  · rw [enabled, hlast]
    simp only [place, ofLex_toLex, targetOf_params, hp, Option.getD_some]
  · obtain ⟨hname, opt', hopt', hmem'⟩ := hserves
    have hadded' := (OptimizationConfig.mem_added c _ (ofLex k).1 (ofLex k).2).mp hk
    rw [targetOf_params, hname] at hadded'
    obtain rfl := Option.some.inj (hopt.symm.trans hopt')
    rw [Prod.Lex.le_iff]
    exact .inr ⟨hname, hmax _ hadded'.1 hadded'.2 hmem'⟩

/-- A blanket request of this optimization is about to be expanded. -/
def Blanket (level : ℕ) (overrides : List Override) (name : String) (opt : Optimization Ctx)
    (c : OptimizationConfig) (p : Params) : Prop :=
  opt.metadata.scopeKind ≠ .global ∧ asked level overrides name "global" = some p ∧
    c.params name "global" = none

theorem expand_own {scope : String} (h : opt.metadata.scopeKind = .global ∨ scope ≠ "global") :
    expand opt ctx scope = [scope] := by
  rw [expand, if_pos h]

theorem expand_blanket (h : opt.metadata.scopeKind ≠ .global) :
    expand opt ctx "global" = opt.candidateScopes ctx := by
  rw [expand, if_neg (by simpa using h)]

/-- A place that no blanket request reaches holds what is asked for there. -/
theorem params_cycle_own (hopt : r.get name = some opt) {scope : String}
    (hown : opt.metadata.scopeKind = .global ∨ scope ≠ "global")
    (h : ∀ p, Blanket level overrides name opt c p → scope ∉ opt.candidateScopes ctx) :
    (cycle r (.manual level overrides) ctx c).params name scope =
      asked level overrides name scope := by
  have hserves : ∀ s, c.params name s = none → asked level overrides name s ≠ none →
      scope ∈ expand opt ctx s → s = scope := by
    intro s hnone hasked hmem
    by_cases hs : opt.metadata.scopeKind = .global ∨ s ≠ "global"
    · rw [expand_own hs] at hmem
      exact (List.mem_singleton.mp hmem).symm
    · push Not at hs
      obtain ⟨p, hp⟩ := Option.ne_none_iff_exists'.mp hasked
      rw [hs.2] at hnone hp hmem
      rw [expand_blanket hs.1] at hmem
      exact absurd hmem (h p ⟨hs.1, hp, hnone⟩)
  rw [params_cycle (by rw [hopt, Option.isSome_some])]
  split_ifs with hrest
  · rfl
  · by_cases hnone : c.params name scope = none
    · cases hasked : asked level overrides name scope with
      | none =>
        rw [enabled_untouched hopt, hnone]
        intro s hs hne hmem
        rw [hserves s hs hne hmem] at hne
        exact hne hasked
      | some p =>
        apply enabled_greatest hopt hnone hasked
        · rw [expand_own hown]
          exact List.mem_singleton_self scope
        · intro s hs hne hmem
          exact (hserves s hs hne hmem).le
    · rw [enabled_untouched hopt]
      · by_contra hne
        exact hrest ⟨hnone, hne⟩
      · intro s hs hne hmem
        rw [hserves s hs hne hmem] at hs
        exact hnone hs

/-- The request itself is held only if its places include it. -/
theorem params_cycle_blanket (hopt : r.get name = some opt) {p : Params}
    (hb : Blanket level overrides name opt c p) :
    (cycle r (.manual level overrides) ctx c).params name "global" =
      if "global" ∈ opt.candidateScopes ctx then some p else none := by
  have hserves : ∀ s, "global" ∈ expand opt ctx s → s = "global" := by
    intro s hmem
    by_contra hs
    rw [expand_own (.inr hs)] at hmem
    exact hs (List.mem_singleton.mp hmem).symm
  rw [params_cycle (by rw [hopt, Option.isSome_some]), if_neg fun h => h.1 hb.2.2]
  split_ifs with hmem
  · apply enabled_greatest hopt hb.2.2 hb.2.1
    · rwa [expand_blanket hb.1]
    · intro s _ _ hs
      exact (hserves s hs).le
  · rw [enabled_untouched hopt, hb.2.2]
    intro s _ _ hs
    rw [hserves s hs, expand_blanket hb.1] at hs
    exact hmem hs

/-- The explicit setting of a place survives the blanket request that reaches it. -/
def Survives (level : ℕ) (overrides : List Override) (name : String) (c : OptimizationConfig)
    (p : Params) (scope : String) : Prop :=
  match asked level overrides name scope with
  | none => c.params name scope ≠ none
  | some own => own = p ∨ match c.params name scope with
    | none => "global" < scope
    | some held => held ≠ own

/-- A place that a blanket request reaches holds what is asked for there exactly when its
setting survives. -/
theorem params_cycle_reached (hopt : r.get name = some opt) {p : Params}
    (hb : Blanket level overrides name opt c p) {scope : String} (hs : scope ≠ "global")
    (hmem : scope ∈ opt.candidateScopes ctx) :
    (cycle r (.manual level overrides) ctx c).params name scope =
      asked level overrides name scope ↔ Survives level overrides name c p scope := by
  have hreach : scope ∈ expand opt ctx "global" := by rwa [expand_blanket hb.1]
  have hserves : ∀ s, scope ∈ expand opt ctx s → s = scope ∨ s = "global" := by
    intro s h
    by_cases hg : s = "global"
    · exact .inr hg
    · rw [expand_own (.inr hg)] at h
      exact .inl (List.mem_singleton.mp h).symm
  -- Unless the place is asked for afresh, the blanket request alone is carried out there.
  have halone : (c.params name scope = none → asked level overrides name scope = none) →
      (enabled r ctx level overrides c).params name scope = some p := by
    intro h
    apply enabled_greatest hopt hb.2.2 hb.2.1 hreach
    intro s hnone hasked h'
    rcases hserves s h' with rfl | rfl
    · exact absurd (h hnone) hasked
    · exact le_rfl
  rw [params_cycle (by rw [hopt, Option.isSome_some]), Survives]
  cases hasked : asked level overrides name scope with
  | none =>
    cases hheld : c.params name scope with
    | none => simp [halone fun _ => hasked]
    | some held => simp
  | some own =>
    cases hheld : c.params name scope with
    | some held =>
      by_cases heq : held = own
      · rw [if_neg (by simp [heq]), halone (by simp [hheld])]
        simp [heq, eq_comm]
      · simp [heq]
    | none =>
      rw [if_neg (by simp)]
      rcases lt_or_gt_of_ne hs with hlt | hgt
      · rw [enabled_greatest hopt hb.2.2 hb.2.1 hreach]
        · simp [hlt.not_gt, eq_comm]
        · intro s _ _ h'
          rcases hserves s h' with rfl | rfl
          · exact hlt.le
          · exact le_rfl
      · rw [enabled_greatest hopt hheld hasked]
        · simp [hgt]
        · rw [expand_own (.inr hs)]
          exact List.mem_singleton_self scope
        · intro s _ _ h'
          rcases hserves s h' with rfl | rfl
          · exact le_rfl
          · exact hgt.le

end

/-! ## Settling -/

/-- The configuration after so many cycles. -/
def configAfter (r : Registry Ctx) (mode : Mode) (ctxs : ℕ → Ctx) (c : OptimizationConfig) :
    ℕ → OptimizationConfig
  | 0 => c
  | k + 1 => cycle r mode (ctxs k) (configAfter r mode ctxs c k)

/-- What each cycle proposes. -/
def proposals (r : Registry Ctx) (mode : Mode) (ctxs : ℕ → Ctx) (c : OptimizationConfig)
    (k : ℕ) : List Decision :=
  ManualDriver.decide r (configAfter r mode ctxs c k) mode (ctxs k)

/-- The second cycle proposes nothing, and no cycle disables a place that an earlier one
enabled. -/
def Settles (r : Registry Ctx) (mode : Mode) (ctxs : ℕ → Ctx) (c : OptimizationConfig) : Prop :=
  proposals r mode ctxs c 1 = [] ∧
    ∀ i j, i < j → ∀ e ∈ proposals r mode ctxs c i, ∀ d ∈ proposals r mode ctxs c j,
      e.action = .enable → d.action = .disable →
        ¬ (e.optimization = d.optimization ∧ e.scope = d.scope)

/-- The places an optimization could be used at do not change. -/
def Steady (r : Registry Ctx) (ctxs : ℕ → Ctx) : Prop :=
  ∀ name opt, r.get name = some opt →
    ∀ k, opt.candidateScopes (ctxs k) = opt.candidateScopes (ctxs 0)

/-- Every blanket request about to be expanded has no place to go, or is itself one of its
places and leaves the settings of the others as they are asked for. -/
def Converges (r : Registry Ctx) (level : ℕ) (overrides : List Override) (ctx : Ctx)
    (c : OptimizationConfig) : Prop :=
  ∀ name opt p, r.get name = some opt → Blanket level overrides name opt c p →
    opt.candidateScopes ctx = [] ∨ "global" ∈ opt.candidateScopes ctx ∧
      ∀ s ∈ opt.candidateScopes ctx, s ≠ "global" → Survives level overrides name c p s

theorem decide_cycle_iff (ctx : Ctx) (c : OptimizationConfig) :
    ManualDriver.decide r (cycle r (.manual level overrides) ctx c) (.manual level overrides) ctx =
      [] ↔ Converges r level overrides ctx c := by
  rw [decide_eq_nil_iff]
  constructor
  · intro h name opt p hopt hb
    by_cases hnil : opt.candidateScopes ctx = []
    · exact .inl hnil
    · right
      constructor
      · have hglobal := @params_cycle_blanket _ _ _ _ _ _ ctx _ hopt _ hb
        by_contra hmem
        rw [if_neg hmem] at hglobal
        rcases h name opt hopt "global" with heq | ⟨-, hexpand⟩
        · rw [hglobal, hb.2.1] at heq
          cases heq
        · rw [expand_blanket hb.1] at hexpand
          exact hnil hexpand
      · intro s hmem hs
        rcases h name opt hopt s with heq | ⟨-, hexpand⟩
        · exact (params_cycle_reached hopt hb hs hmem).mp heq
        · rw [expand_own (.inr hs)] at hexpand
          cases hexpand
  · intro h name opt hopt scope
    by_cases hreach : ∃ p, Blanket level overrides name opt c p ∧
        (scope = "global" ∨ scope ∈ opt.candidateScopes ctx)
    · obtain ⟨p, hb, hscope⟩ := hreach
      rcases h name opt p hopt hb with hnil | ⟨hglobal, hsurvive⟩
      · rw [hnil] at hscope
        obtain rfl : scope = "global" := by simpa using hscope
        right
        rw [params_cycle_blanket hopt hb, hnil, expand_blanket hb.1, hnil]
        exact ⟨if_neg List.not_mem_nil, rfl⟩
      · left
        by_cases hs : scope = "global"
        · rw [hs, params_cycle_blanket hopt hb, if_pos hglobal, hb.2.1]
        · have hmem := hscope.resolve_left hs
          exact (params_cycle_reached hopt hb hs hmem).mpr (hsurvive scope hmem hs)
    · left
      by_cases hown : opt.metadata.scopeKind = .global ∨ scope ≠ "global"
      · exact params_cycle_own hopt hown fun p hb hmem => hreach ⟨p, hb, .inr hmem⟩
      · -- A request that is not about to be expanded is held, or is not asked for.
        push Not at hown
        have hnot : ∀ p, asked level overrides name scope = some p →
            c.params name scope ≠ none := by
          intro p hp hnone
          rw [hown.2] at hp hnone
          exact hreach ⟨p, ⟨hown.1, hp, hnone⟩, .inl hown.2⟩
        rw [params_cycle (by rw [hopt, Option.isSome_some])]
        split_ifs with hrest
        · rfl
        · have huntouched : (enabled r ctx level overrides c).params name scope =
              c.params name scope := by
            apply enabled_untouched hopt
            intro s hnone hasked hmem
            obtain ⟨p, hp⟩ := Option.ne_none_iff_exists'.mp hasked
            by_cases hs : s = "global"
            · rw [← hown.2] at hs
              exact hnot p (hs ▸ hp) (hs ▸ hnone)
            · rw [expand_own (.inr hs)] at hmem
              exact hs ((List.mem_singleton.mp hmem).symm.trans hown.2)
          rw [huntouched]
          by_contra hne
          apply hrest
          cases hasked : asked level overrides name scope with
          | none => exact ⟨fun hnone => hne (hnone.trans hasked.symm), hasked ▸ hne⟩
          | some p => exact ⟨hnot p hasked, hasked ▸ hne⟩

theorem decide_steady {ctxs : ℕ → Ctx} (h : Steady r ctxs) {c : OptimizationConfig} (j k : ℕ)
    (hnil : ManualDriver.decide r c (.manual level overrides) (ctxs j) = []) :
    ManualDriver.decide r c (.manual level overrides) (ctxs k) = [] := by
  rw [decide_eq_nil_iff] at hnil ⊢
  intro name opt hopt scope
  have hexpand : expand opt (ctxs k) scope = expand opt (ctxs j) scope := by
    rw [expand, expand, h name opt hopt k, h name opt hopt j]
  rw [hexpand]
  exact hnil name opt hopt scope

/-- Manual mode settles exactly when its blanket requests do. -/
theorem manual_settles_iff (r : Registry Ctx) (level : ℕ) (overrides : List Override)
    (ctxs : ℕ → Ctx) (h : Steady r ctxs) (c : OptimizationConfig) :
    Settles r (.manual level overrides) ctxs c ↔ Converges r level overrides (ctxs 0) c := by
  rw [← decide_cycle_iff]
  constructor
  · intro hs
    exact decide_steady h 1 0 hs.1
  · intro hnil
    have hlater : ∀ k, proposals r (.manual level overrides) ctxs c (k + 1) = [] ∧
        configAfter r (.manual level overrides) ctxs c (k + 1) =
          cycle r (.manual level overrides) (ctxs 0) c := by
      intro k
      induction k with
      | zero => exact ⟨decide_steady h 0 1 hnil, rfl⟩
      | succ k ih =>
        have hsame : configAfter r (.manual level overrides) ctxs c (k + 2) =
            cycle r (.manual level overrides) (ctxs 0) c := by
          rw [← ih.2, configAfter, cycle]
          have hprop := ih.1
          rw [proposals] at hprop
          rw [hprop, List.foldl_nil]
        constructor
        · rw [proposals, hsame]
          exact decide_steady h 0 _ hnil
        · exact hsame
    constructor
    · exact (hlater 0).1
    · intro i j hij e _ d hd
      cases j with
      | zero => exact absurd hij (Nat.not_lt_zero i)
      | succ j =>
        rw [(hlater j).1] at hd
        cases hd

/-- An index on every field worth one, of which there is one. -/
def oneField : Optimization Unit where
  metadata :=
    { name := "auto_index"
      scopeKind := .perField
      requiresGuarantees := .any
      prerequisites := []
      conflictsWith := [] }
  applicability _ := .applicable
  candidateScopes _ := ["users.country"]
  ramBytes _ := 0
  planEnable _ _ _ :=
    ⟨[.createIndex "users" "country" .hash], [.dropIndex "users" "country" .hash]⟩
  planDisable _ _ _ :=
    ⟨[.dropIndex "users" "country" .hash], [.createIndex "users" "country" .hash]⟩

/-- The index that level 2 creates is dropped again by the next cycle. -/
theorem blanket_flaps :
    ¬ Settles ((Registry.new.register oneField).getD .new) (.manual 2 []) (fun _ => ()) .new := by
  intro h
  have hnil := h.1
  revert hnil
  decide +kernel

/-- An explicit request for the same place settles. -/
theorem manual_settles_explicit :
    Settles ((Registry.new.register oneField).getD .new)
      (.manual 2 [⟨"auto_index", "users.country", true, []⟩]) (fun _ => ()) .new := by
  apply (manual_settles_iff _ 2 _ _ (fun _ _ _ _ => rfl) _).mpr
  intro name opt p hopt hb
  have hname : name = "auto_index" := by
    by_contra hne
    change OrdMap.get (OrdMap.insert ∅ "auto_index" oneField) name = some opt at hopt
    rw [OrdMap.get_insert_ne _ _ hne] at hopt
    cases hopt
  have hasked : asked 2 [⟨"auto_index", "users.country", true, []⟩] name "global" = none := by
    rw [hname]
    decide +kernel
  rw [hb.2.1] at hasked
  cases hasked

end Adabt.Opt
