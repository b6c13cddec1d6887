import Adabt.Opt.Adaptive
import Adabt.Opt.Legality
import Adabt.Opt.Stability

/-! # Carrying out what the adaptive driver proposes

The search looks at the new candidates only: not at what is enabled, not at the memory
they take, and not at the order they are proposed in. Where no candidate rests on
another optimization, conflicts with what is enabled or may pass the ceiling, a batch
passes those gates of the controller. -/

set_option autoImplicit false

namespace Adabt.Opt
open Adabt.Core Adabt.Library

/-! ## The search -/

theorem chosenBy_subset {mask : ℕ} {candidates : List Candidate} {c : Candidate}
    (h : c ∈ chosenBy mask candidates) : c ∈ candidates := by
  obtain ⟨⟨c', i⟩, hmem, rfl⟩ := List.mem_map.mp h
  exact List.fst_mem_of_mem_zipIdx (List.mem_of_mem_filter hmem)

/-- A combination is that of some candidates which are coherent. -/
def Coherent (candidates : List Candidate) (c : Combination) : Prop :=
  ∃ chosen : List Candidate, (∀ x ∈ chosen, x ∈ candidates) ∧
    isCoherent (chosen.map fun x => (x.name, x.metadata)) = true ∧ c.keys = chosen.map (·.key)

theorem coherent_tryMask {candidates : List Candidate} {ceiling : Option ℕ}
    {best : Option Combination} {mask : ℕ} (h : ∀ c, best = some c → Coherent candidates c)
    {c : Combination} (hc : tryMask candidates ceiling best mask = some c) : Coherent candidates c := by
  rw [tryMask] at hc
  dsimp only at hc
  split_ifs at hc with hempty hincoherent
  · exact h c hc
  · exact h c hc
  · exact h c hc
  · cases hc
    exact ⟨chosenBy mask candidates, fun x hx => chosenBy_subset hx, by simpa using hincoherent, rfl⟩
  · exact h c hc

theorem coherent_bestCombination {candidates : List Candidate} {policy : Policy} {c : Combination}
    (h : bestCombination candidates policy = some c) : Coherent candidates c := by
  have hfold : ∀ (masks : List ℕ) (best : Option Combination),
      (∀ c, best = some c → Coherent candidates c) → ∀ c,
        masks.foldl (tryMask candidates policy.constraints.maxRamBytes) best = some c →
          Coherent candidates c := by
    intro masks
    induction masks with
    | nil => exact fun best hbest c hc => hbest c hc
    | cons mask masks ih => exact fun best hbest => ih _ fun c hc => coherent_tryMask hbest hc
  rw [bestCombination] at h
  split_ifs at h
  exact hfold _ none (fun c hc => by cases hc) c h

theorem tryMask_isSome {candidates : List Candidate} {ceiling : Option ℕ} {best : Option Combination}
    {mask : ℕ} (h : best.isSome) : (tryMask candidates ceiling best mask).isSome := by
  rw [tryMask]
  dsimp only
  split_ifs <;> first | exact h | rfl

/-- The lowest bit alone chooses the first candidate. -/
theorem chosenBy_one (c : Candidate) (rest : List Candidate) : chosenBy 1 (c :: rest) = [c] := by
  have hrest : (rest.zipIdx 1).filter (fun c => Nat.testBit 1 c.2) = [] := by
    rw [List.filter_eq_nil_iff]
    intro x hx
    have hle := List.le_snd_of_mem_zipIdx hx
    rw [Nat.testBit_one_eq_true_iff_self_eq_zero]
    omega
  rw [chosenBy, List.zipIdx_cons, Nat.zero_add]
  rw [List.filter_cons_of_pos (p := fun c : Candidate × ℕ => Nat.testBit 1 c.2)
    Nat.testBit_one_zero, hrest]
  rfl

/-- A candidate that is coherent by itself and costs nothing is a combination. -/
theorem bestCombination_isSome {c : Candidate} {rest : List Candidate} {policy : Policy}
    (hlen : (c :: rest).length ≤ maxExhaustive) (halone : isCoherent [(c.name, c.metadata)] = true)
    (hram : c.ramBytes = 0) : (bestCombination (c :: rest) policy).isSome := by
  have hkeep : ∀ (masks : List ℕ) (best : Option Combination), best.isSome →
      (masks.foldl (tryMask (c :: rest) policy.constraints.maxRamBytes) best).isSome := by
    intro masks
    induction masks with
    | nil => exact fun best hbest => hbest
    | cons mask masks ih => exact fun best hbest => ih _ (tryMask_isSome hbest)
  have hcombination : (tryMask (c :: rest) policy.constraints.maxRamBytes none 1).isSome := by
    have hfree : affordable policy.constraints.maxRamBytes (combinationOf [c]).ramBytes = true := by
      have hzero : (combinationOf [c]).ramBytes = 0 := by
        change (([c].map fun c => max c.ramBytes 0).sum) = 0
        rw [List.map_singleton, List.sum_singleton, hram]
        rfl
      rw [hzero]
      cases policy.constraints.maxRamBytes with
      | none => rfl
      | some limit => simp [affordable]
    rw [tryMask, chosenBy_one]
    dsimp only
    rw [if_neg (by simp), if_neg (by simpa using halone), hfree]
    rfl
  have hmask : 1 ∈ List.range (2 ^ (c :: rest).length) := by
    rw [List.mem_range, List.length_cons, pow_succ]
    have hpos := Nat.two_pow_pos rest.length
    omega
  obtain ⟨before, after, hsplit⟩ := List.append_of_mem hmask
  rw [bestCombination, if_neg (by simpa using hlen), hsplit, List.foldl_append, List.foldl_cons]
  apply hkeep
  cases hbest : before.foldl (tryMask (c :: rest) policy.constraints.maxRamBytes) none with
  | none => exact hcombination
  | some b => exact tryMask_isSome rfl

/-! ## What is picked -/

/-- A NUL separates the name from the scope where the name holds none. -/
theorem scopeKey_name {name scope name' scope' : String} (h : scopeKey name scope = scopeKey name' scope')
    (hn : '\x00' ∉ name.toList) (hn' : '\x00' ∉ name'.toList) : name = name' := by
  have hbefore : ∀ n s : String, '\x00' ∉ n.toList →
      (scopeKey n s).toList.takeWhile (· ≠ '\x00') = n.toList := by
    intro n s hfree
    rw [scopeKey, String.toList_append, String.toList_append, List.append_assoc,
      List.takeWhile_append_of_pos]
    · exact List.append_nil _
    · intro c hc
      have hne : c ≠ '\x00' := fun heq => hfree (heq ▸ hc)
      simpa using hne
  rw [← String.toList_inj, ← hbefore name scope hn, ← hbefore name' scope' hn', h]

/-- An optimization that may be proposed where it is not enabled. -/
structure Proposable (input : DriverInput) (opt : Optimization OptContext) : Prop where
  listed : opt ∈ input.catalogue.registry.iter
  permitted : permittedBy opt.metadata input.policy.toPolicy = true
  applicable : (opt.applicability input.ctx).isApplicable = true
  reversible : (input.catalogue.profile opt.metadata.name).reversibility ≠ .destructive
  candidate : ∃ scope ∈ opt.candidateScopes input.ctx,
    input.current.params opt.metadata.name scope = none

/-- What may be proposed needs no other optimization, conflicts with none that is enabled
nor with itself, and any two of them fit under the ceiling. -/
structure DriverInput.Plain (input : DriverInput) : Prop where
  unsupported : ∀ opt, Proposable input opt → opt.metadata.prerequisites = []
  apart : ∀ opt, Proposable input opt →
    ¬ input.catalogue.registry.Conflict opt.metadata.name opt.metadata.name ∧
      ∀ name, input.current.isEnabledAnywhere name →
        ¬ input.catalogue.registry.Conflict opt.metadata.name name
  fits : ∀ opt opt', Proposable input opt → Proposable input opt' →
    ∀ maxRam : ℕ, input.policy.constraints.maxRamBytes = some maxRam →
      (input.current.ramOf input.catalogue.registry input.ctx).sum + max (opt.ramBytes input.ctx) 0 +
        max (opt'.ramBytes input.ctx) 0 ≤ maxRam
  named : ∀ opt, Proposable input opt → '\x00' ∉ opt.metadata.name.toList

section Picked

variable {d : AdaptiveDriver} {input : DriverInput}

/-- The registered optimization behind an addition. -/
theorem proposable_of_ranked {a : Decision × F64} (h : a ∈ d.ranked input) :
    ∃ opt, Proposable input opt ∧ input.catalogue.registry.get a.1.optimization = some opt ∧
      opt.metadata.name = a.1.optimization := by
  obtain ⟨trigger, hadd, -⟩ := AdaptiveDriver.mem_ranked (x := a.1) (s := a.2) h
  obtain ⟨opt, hiter, hof⟩ := AdaptiveDriver.mem_additions hadd
  obtain ⟨hpermitted, happlicable, hreversible, scope, hscope, hspec⟩ :=
    AdaptiveDriver.mem_additionsOf hof
  obtain ⟨hname, -, -, hparams, -⟩ := AdaptiveDriver.addition_spec hspec
  obtain ⟨name, -, hget⟩ := List.mem_filterMap.mp hiter
  have hown := input.catalogue.registry.named name opt hget
  refine ⟨opt, ⟨hiter, hpermitted, happlicable, hreversible, scope, hscope, hparams⟩, ?_, hname.symm⟩
  rw [show a.1.optimization = name from hname.trans hown]
  exact hget

/-- What the search is given stands for what may be proposed. -/
theorem mem_candidatesOf {c : Candidate} (h : c ∈ candidatesOf input.catalogue.registry (d.ranked input)) :
    ∃ a ∈ d.ranked input, c.key = scopeKey a.1.optimization a.1.scope ∧ c.name = a.1.optimization ∧
      c.ramBytes = 0 ∧ input.catalogue.registry.info a.1.optimization = some c.metadata := by
  obtain ⟨a, ha, hc⟩ := List.mem_filterMap.mp h
  obtain ⟨m, hinfo, rfl⟩ := Option.map_eq_some_iff.mp hc
  refine ⟨a, List.mem_of_mem_take ha, rfl, ?_, rfl, hinfo⟩
  obtain ⟨opt, -, hget, hname⟩ := proposable_of_ranked (List.mem_of_mem_take ha)
  rw [Registry.info, hget] at hinfo
  cases hinfo
  exact hname

/-- What may be proposed needs nothing and does not conflict with itself. -/
theorem isCoherent_alone (hplain : input.Plain) {c : Candidate}
    (h : c ∈ candidatesOf input.catalogue.registry (d.ranked input)) :
    isCoherent [(c.name, c.metadata)] = true := by
  obtain ⟨a, ha, -, hname, -, hinfo⟩ := mem_candidatesOf h
  obtain ⟨opt, hopt, hget, hopts⟩ := proposable_of_ranked ha
  have hm : opt.metadata = c.metadata := by
    rw [Registry.info, hget] at hinfo
    exact Option.some.inj hinfo
  have hself : c.name ∉ c.metadata.conflictsWith := by
    intro hmem
    apply (hplain.apart opt hopt).1
    rw [hopts]
    exact .inl ⟨c.metadata, hinfo, hname ▸ hmem⟩
  simp only [isCoherent, List.map_cons, List.map_nil, List.all_cons, List.all_nil, Bool.and_true,
    ← hm, hplain.unsupported opt hopt, List.all_eq_true, decide_eq_true_eq, List.mem_singleton]
  intro o ho heq
  exact hself (heq ▸ hm ▸ ho)

theorem candidatesOf_ne_nil (hsome : d.ranked input ≠ []) : ∃ c rest,
    candidatesOf input.catalogue.registry (d.ranked input) = c :: rest ∧
      (c :: rest).length ≤ maxExhaustive := by
  have hlen : (candidatesOf input.catalogue.registry (d.ranked input)).length ≤ maxExhaustive :=
    (List.length_filterMap_le _ _).trans (List.length_take_le _ _)
  cases hranked : d.ranked input with
  | nil => exact absurd hranked hsome
  | cons a as =>
    have ha : a ∈ d.ranked input := by
      rw [hranked]
      exact List.mem_cons_self
    obtain ⟨opt, -, hget, -⟩ := proposable_of_ranked ha
    have hinfo : input.catalogue.registry.info a.1.optimization = some opt.metadata := by
      rw [Registry.info, hget, Option.map_some]
    rw [hranked] at hlen
    generalize hcs : candidatesOf input.catalogue.registry (a :: as) = cs at hlen
    cases cs with
    | nil =>
      rw [candidatesOf, maxExhaustive, List.take_succ_cons, List.filterMap_cons, hinfo] at hcs
      cases hcs
    | cons c rest => exact ⟨c, rest, rfl, hlen⟩

/-- With candidates that rest on nothing and do not conflict with themselves, the search
finds a combination. -/
theorem pickedKeys_coherent (hplain : input.Plain) (hsome : d.ranked input ≠ []) :
    ∃ chosen : List Candidate,
      (∀ c ∈ chosen, c ∈ candidatesOf input.catalogue.registry (d.ranked input)) ∧
      isCoherent (chosen.map fun x => (x.name, x.metadata)) = true ∧
      pickedKeys input.catalogue.registry input.policy.toPolicy (d.ranked input) =
        chosen.map (·.key) := by
  obtain ⟨c, rest, hcandidates, hlen⟩ := candidatesOf_ne_nil hsome
  have hc : c ∈ candidatesOf input.catalogue.registry (d.ranked input) := by
    rw [hcandidates]
    exact List.mem_cons_self
  obtain ⟨-, -, -, -, hram, -⟩ := mem_candidatesOf hc
  have hfound : (bestCombination (c :: rest) input.policy.toPolicy).isSome :=
    bestCombination_isSome hlen (isCoherent_alone hplain hc) hram
  obtain ⟨best, hbest⟩ := Option.isSome_iff_exists.mp hfound
  rw [← hcandidates] at hbest
  obtain ⟨chosen, hchosen, hcoherent, hkeys⟩ := coherent_bestCombination hbest
  refine ⟨chosen, hchosen, hcoherent, ?_⟩
  rw [pickedKeys, hbest]
  exact hkeys

/-- No two of the additions of one cycle conflict. -/
theorem apart_of_chosen (hplain : input.Plain) {room : ℕ} {x y : Decision}
    (hx : x ∈ d.chooseAdditions input room) (hy : y ∈ d.chooseAdditions input room) :
    ¬ input.catalogue.registry.Conflict x.optimization y.optimization := by
  rw [AdaptiveDriver.chooseAdditions] at hx hy
  dsimp only at hx hy
  split_ifs at hx hy with hnone
  · exact absurd hx List.not_mem_nil
  · simp only [Bool.or_eq_true, decide_eq_true_eq, List.isEmpty_iff, not_or] at hnone
    obtain ⟨chosen, hchosen, hcoherent, hkeys⟩ := pickedKeys_coherent hplain hnone.2
    have hbehind : ∀ z ∈ (d.ranked input).map (·.1),
        scopeKey z.optimization z.scope ∈ chosen.map (·.key) →
          ∃ c ∈ chosen, c.name = z.optimization ∧
            input.catalogue.registry.info z.optimization = some c.metadata := by
      intro z hz hkey
      obtain ⟨c, hc, heq⟩ := List.mem_map.mp hkey
      obtain ⟨a, ha, hscope, hname, -, hinfo⟩ := mem_candidatesOf (hchosen c hc)
      obtain ⟨b, hb, rfl⟩ := List.mem_map.mp hz
      obtain ⟨opt, hopt, -, hown⟩ := proposable_of_ranked ha
      obtain ⟨opt', hopt', -, hown'⟩ := proposable_of_ranked hb
      have hsame : a.1.optimization = b.1.optimization :=
        scopeKey_name (hscope.symm.trans heq) (hown ▸ hplain.named opt hopt)
          (hown' ▸ hplain.named opt' hopt')
      exact ⟨c, hc, hname.trans hsame, hsame ▸ hinfo⟩
    have hdeclared : ∀ c ∈ chosen, ∀ c' ∈ chosen, c'.name ∉ c.metadata.conflictsWith := by
      intro c hc c' hc' hmem
      simp only [isCoherent, List.all_eq_true, Bool.and_eq_true, decide_eq_true_eq,
        List.mem_map] at hcoherent
      exact (hcoherent _ ⟨c, hc, rfl⟩).1 _ hmem ⟨_, ⟨c', hc', rfl⟩, rfl⟩
    rw [hkeys] at hx hy
    obtain ⟨hx, hxkey⟩ := List.mem_filter.mp (List.mem_of_mem_take hx)
    obtain ⟨hy, hykey⟩ := List.mem_filter.mp (List.mem_of_mem_take hy)
    obtain ⟨c, hc, hcx, hxinfo⟩ := hbehind x hx (of_decide_eq_true hxkey)
    obtain ⟨c', hc', hcy, hyinfo⟩ := hbehind y hy (of_decide_eq_true hykey)
    rintro (⟨m, hm, hmem⟩ | ⟨m, hm, hmem⟩)
    · rw [hxinfo] at hm
      cases hm
      exact hdeclared c hc c' hc' (hcy ▸ hmem)
    · rw [hyinfo] at hm
      cases hm
      exact hdeclared c' hc' c hc (hcx ▸ hmem)

/-- An addition of the batch is of an optimization that may be proposed. -/
theorem proposable_of_chosen {room : ℕ} {x : Decision} (hx : x ∈ d.chooseAdditions input room) :
    ∃ opt, Proposable input opt ∧ input.catalogue.registry.get x.optimization = some opt ∧
      opt.metadata.name = x.optimization := by
  rw [AdaptiveDriver.chooseAdditions] at hx
  dsimp only at hx
  split_ifs at hx
  · exact absurd hx List.not_mem_nil
  · obtain ⟨a, ha, rfl⟩ := List.mem_map.mp (List.mem_of_mem_filter (List.mem_of_mem_take hx))
    exact proposable_of_ranked ha

end Picked

/-! ## The configuration while a batch is applied -/

variable {Ctx σ : Type} {env : ApplyEnv Ctx}

/-- The memory a decision may add. -/
def ApplyEnv.addedRam (env : ApplyEnv Ctx) (x : Decision) : ℤ :=
  match env.registry.get x.optimization with
  | some opt => if x.action = .disable then 0 else max (opt.ramBytes env.ctx) 0
  | none => 0

theorem ApplyEnv.addedRam_nonneg (env : ApplyEnv Ctx) (x : Decision) : 0 ≤ env.addedRam x := by
  rw [addedRam]
  cases env.registry.get x.optimization with
  | none => exact le_refl _
  | some opt =>
    dsimp only
    split_ifs
    · exact le_refl _
    · exact le_max_right _ _

/-- From one configuration to another with no more than these decisions enable. -/
structure GrownBy (env : ApplyEnv Ctx) (c : OptimizationConfig) (ds : List Decision)
    (c' : OptimizationConfig) : Prop where
  held : ∀ name scope, c'.params name scope ≠ none → c.params name scope ≠ none ∨
    ∃ x ∈ ds, x.action ≠ .disable ∧ x.optimization = name
  ram : (c'.ramOf env.registry env.ctx).sum ≤
    (c.ramOf env.registry env.ctx).sum + (ds.map env.addedRam).sum

theorem GrownBy.refl (env : ApplyEnv Ctx) (c : OptimizationConfig) : GrownBy env c [] c :=
  ⟨fun _ _ => .inl, by simp⟩

theorem GrownBy.trans {c c' c'' : OptimizationConfig} {ds ds' : List Decision}
    (h : GrownBy env c ds c') (h' : GrownBy env c' ds' c'') : GrownBy env c (ds ++ ds') c'' where
  held := by
    intro name scope hheld
    rcases h'.held name scope hheld with hmid | ⟨x, hx, hspec⟩
    · rcases h.held name scope hmid with hold | ⟨x, hx, hspec⟩
      · exact .inl hold
      · exact .inr ⟨x, List.mem_append_left _ hx, hspec⟩
    · exact .inr ⟨x, List.mem_append_right _ hx, hspec⟩
  ram := by
    have hfirst := h.ram
    have hsecond := h'.ram
    rw [List.map_append, List.sum_append]
    omega

theorem Moves.grown {d : Decision} {c c' : OptimizationConfig} (h : Moves env d c c') :
    GrownBy env c [d] c' := by
  have hnonneg := env.addedRam_nonneg d
  cases h with
  | stays => exact ⟨fun _ _ => .inl, by simpa using hnonneg⟩
  | disables =>
    constructor
    · exact fun name scope h => .inl (params_disable_ne h).1
    · have hless := @OptimizationConfig.ramOf_disable _ env.registry env.ctx c d.optimization d.scope
      rw [List.map_singleton, List.sum_singleton]
      omega
  | enables opt hd hopt =>
    constructor
    · intro name scope h
      rw [OptimizationConfig.params_enable] at h
      split_ifs at h with hplace
      · exact .inr ⟨d, List.mem_singleton_self d, hd, hplace.1.symm⟩
      · exact .inl h
    · have hless := @OptimizationConfig.ramOf_disable _ env.registry env.ctx c d.optimization d.scope
      have hadded : env.addedRam d = max (opt.ramBytes env.ctx) 0 := by
        rw [ApplyEnv.addedRam, hopt]
        exact if_neg hd
      rw [OptimizationConfig.ramOf_enable hopt, List.map_singleton, List.sum_singleton, hadded]
      omega

theorem apply_grown (P : ActionSink σ) (ds : List Decision) (report : ApplyReport) (s : Steered σ) :
    Post (apply env P report ds) s
      (fun _ s' => GrownBy env s.controller.config ds s'.controller.config) fun _ _ => True := by
  induction ds generalizing report s with
  | nil => exact .refl env _
  | cons d ds ih =>
    rw [apply, post_bind]
    refine (applyDecision_moves env P d s).mono ?_ fun _ _ _ => trivial
    intro verdict s' hmoves
    exact (ih (report.note d.label verdict) s').mono (fun _ _ h => hmoves.grown.trans h)
      fun _ _ _ => trivial

/-- A rejection for what else is enabled. -/
def Verdict.Crowded (v : Verdict) : Prop :=
  v = .missingPrerequisite ∨ v = .conflicts ∨ v = .exceedsConstraints

/-- Such a rejection comes from the gates. -/
theorem refused_of_crowded (P : ActionSink σ) (x : Decision) (s : Steered σ) :
    Post (applyDecision env P x) s (fun v _ => v.Crowded → ∃ opt, x.action ≠ .disable ∧
      env.registry.get x.optimization = some opt ∧
        env.refusal s.controller.config x.optimization opt = some v) fun _ _ => True := by
  have hfree : ¬ Verdict.Crowded .notApplicable ∧ ¬ Verdict.Crowded .applied := by
    constructor <;> rintro (h | h | h) <;> cases h
  unfold applyDecision
  cases hopt : env.registry.get x.optimization with
  | none => exact fun h => absurd h hfree.1
  | some opt =>
    by_cases hd : x.action = .disable
    · simp only [if_pos hd, post_bind]
      refine Post.mono (Q := fun _ _ => True) (R := fun _ _ => True) ?_
        (fun _ _ _ h => absurd h hfree.2) fun _ _ _ => trivial
      unfold Post
      cases disable env P x s <;> trivial
    · simp only [if_neg hd, post_bind, post_get]
      cases hrefusal : env.refusal s.controller.config x.optimization opt with
      | some verdict => exact fun _ => ⟨opt, hd, rfl, hrefusal⟩
      | none =>
        unfold enact
        simp only [post_bind, post_modifyGet]
        cases canApplyAll P (opt.planEnable env.ctx x.scope x.params).apply s.sink with
        | mk possible sink =>
          cases possible with
          | false => exact fun h => absurd h hfree.1
          | true =>
            simp only [Bool.not_true, Bool.false_eq_true, if_false, post_bind, post_modify]
            exact (within_applyActions P _ _).mono (fun _ _ _ h => absurd h hfree.2)
              fun _ _ _ => trivial

/-- A decision that does not pass the gates leaves everything as it was. -/
theorem applyDecision_refused {P : ActionSink σ} {x : Decision} {s : Steered σ} {opt : Optimization Ctx}
    {verdict : Verdict} (hget : env.registry.get x.optimization = some opt) (hx : x.action ≠ .disable)
    (hrefusal : env.refusal s.controller.config x.optimization opt = some verdict) :
    applyDecision env P x s = .ok verdict s := by
  have hrun : Returns (applyDecision env P x) s fun v s' => v = verdict ∧ s' = s := by
    unfold applyDecision
    simp only [hget, if_neg hx, post_bind, post_get, hrefusal]
    exact ⟨rfl, rfl⟩
  obtain ⟨v, s', h, rfl, rfl⟩ := hrun.exists
  exact h

/-! ## The batch -/

def DriverInput.applyEnv (input : DriverInput) : ApplyEnv OptContext :=
  ⟨input.catalogue.registry, input.policy.toPolicy, input.ctx⟩

/-- What a cycle proposes can be carried out as it stands. -/
structure CarriedOut (d : AdaptiveDriver) (input : DriverInput) : Prop where
  /-- After the decisions before it, none is rejected for what is enabled then. -/
  gates : ∀ {σ : Type} (P : ActionSink σ) (before after : List Decision) (x : Decision),
    (d.decide input).1 = before ++ x :: after → x.action = .enable →
      ∀ (s s' s'' : Steered σ) (report report' : ApplyReport) (verdict : Verdict),
        s.controller.config = input.current →
        apply input.applyEnv P report before s = .ok report' s' →
        applyDecision input.applyEnv P x s' = .ok verdict s'' → ¬ verdict.Crowded
  /-- The search holds no prerequisite against a candidate that is enabled already. -/
  search : ∀ c ∈ candidatesOf input.catalogue.registry ((d.begun input).ranked input),
    (∀ p ∈ c.metadata.prerequisites, input.current.isEnabledAnywhere p) →
      ∀ mask, c ∈ chosenBy mask
          (candidatesOf input.catalogue.registry ((d.begun input).ranked input)) →
        ∀ p ∈ c.metadata.prerequisites, p ∈ (chosenBy mask
          (candidatesOf input.catalogue.registry ((d.begun input).ranked input))).map (·.name)

section Batch

variable {d : AdaptiveDriver} {input : DriverInput}

theorem chosen_of_mem {x : Decision} (h : x ∈ (d.decide input).1) (hx : x.action ≠ .disable) :
    x ∈ (d.begun input).chooseAdditions input
      (maxChangesPerCycle - ((d.begun input).chooseRemovals input).length) := by
  rcases List.mem_append.mp (AdaptiveDriver.mem_decide h) with h | h
  · obtain ⟨⟨k, p, -, s, hk⟩, -⟩ := AdaptiveDriver.mem_chooseRemovals h
    exact absurd (AdaptiveDriver.removal_spec hk).2.1 hx
  · exact h

/-- Nothing that is enabled when an addition of the batch is due conflicts with it. -/
theorem no_conflicts (hplain : input.Plain) {before : List Decision} {x : Decision}
    {c : OptimizationConfig} (hgrown : GrownBy input.applyEnv input.current before c)
    (hbefore : ∀ y ∈ before, y ∈ (d.decide input).1) (hmem : x ∈ (d.decide input).1)
    (hx : x.action ≠ .disable) :
    input.catalogue.registry.conflictsAmong x.optimization (c.entries.map fun e => (ofLex e.1).1) =
      [] := by
  rw [List.eq_nil_iff_forall_not_mem]
  intro name hname
  obtain ⟨-, hheld, hconflict⟩ := Registry.mem_conflictsAmong.mp hname
  obtain ⟨e, he, rfl⟩ := List.mem_map.mp hheld
  have hparams : c.params (ofLex e.1).1 (ofLex e.1).2 ≠ none := by
    rw [← Option.isSome_iff_ne_none, ← OptimizationConfig.mem_keys]
    exact List.mem_map_of_mem he
  have hchosen := chosen_of_mem hmem hx
  obtain ⟨opt, hopt, -, hown⟩ := proposable_of_chosen hchosen
  rcases hgrown.held _ _ hparams with hold | ⟨y, hy, haction, hyname⟩
  · apply (hplain.apart opt hopt).2 (ofLex e.1).1
    · rw [OptimizationConfig.isEnabledAnywhere_iff]
      exact ⟨_, Option.isSome_iff_ne_none.mpr hold⟩
    · rwa [hown]
  · apply apart_of_chosen hplain hchosen (chosen_of_mem (hbefore y hy) haction)
    rwa [hyname]

/-- The memory of the batch fits under the ceiling when an addition is due. -/
theorem not_exceeds (hplain : input.Plain) {before after : List Decision} {x : Decision}
    {c : OptimizationConfig} (hgrown : GrownBy input.applyEnv input.current before c)
    (hbatch : (d.decide input).1 = before ++ x :: after) {opt : Optimization OptContext}
    (hopt : Proposable input opt) : input.applyEnv.exceeds c opt = false := by
  rw [ApplyEnv.exceeds]
  cases hmax : input.applyEnv.policy.constraints.maxRamBytes with
  | none => rfl
  | some maxRam =>
    have hbefore : before.length ≤ 1 := by
      have hlen : (d.decide input).1.length ≤ maxChangesPerCycle := by
        rw [AdaptiveDriver.decide]
        dsimp only
        split_ifs
        · exact Nat.zero_le _
        · exact AdaptiveDriver.length_choose_le
      rw [hbatch, List.length_append, List.length_cons, maxChangesPerCycle] at hlen
      omega
    have hnonneg : 0 ≤ max (opt.ramBytes input.ctx) 0 := le_max_right _ _
    have hroom : (c.ramOf input.catalogue.registry input.ctx).sum + max (opt.ramBytes input.ctx) 0 ≤
        maxRam := by
      have hram : (c.ramOf input.catalogue.registry input.ctx).sum ≤
          (input.current.ramOf input.catalogue.registry input.ctx).sum +
            (before.map input.applyEnv.addedRam).sum := hgrown.ram
      have htwice := hplain.fits opt opt hopt hopt maxRam hmax
      cases before with
      | nil =>
        rw [List.map_nil, List.sum_nil] at hram
        omega
      | cons y ys =>
        obtain rfl : ys = [] := by
          rw [List.length_cons] at hbefore
          exact List.eq_nil_of_length_eq_zero (by omega)
        have hadded : ∃ opt', Proposable input opt' ∧
            input.applyEnv.addedRam y ≤ max (opt'.ramBytes input.ctx) 0 := by
          by_cases hy : y.action = .disable
          · refine ⟨opt, hopt, le_trans (le_of_eq ?_) hnonneg⟩
            rw [ApplyEnv.addedRam]
            cases input.applyEnv.registry.get y.optimization with
            | none => rfl
            | some _ => exact if_pos hy
          · have hmem : y ∈ (d.decide input).1 := by
              rw [hbatch]
              exact List.mem_cons_self
            obtain ⟨opt', hopt', hget, -⟩ := proposable_of_chosen (chosen_of_mem hmem hy)
            refine ⟨opt', hopt', le_of_eq ?_⟩
            rw [ApplyEnv.addedRam, show input.applyEnv.registry.get y.optimization = some opt' from hget]
            exact if_neg hy
        obtain ⟨opt', hopt', hless⟩ := hadded
        have hboth := hplain.fits opt' opt hopt' hopt maxRam hmax
        rw [List.map_singleton, List.sum_singleton] at hram
        omega
    have hstart : 0 ≤ (c.ramOf input.catalogue.registry input.ctx).sum :=
      List.sum_nonneg fun n => OptimizationConfig.ramOf_nonneg
    simp only [decide_eq_false_iff_not, not_lt]
    rw [OptimizationConfig.wrap_emod, Int.add_emod, OptimizationConfig.committedRam_emod,
      ← Int.add_emod]
    change ((((c.ramOf input.catalogue.registry input.ctx).sum + max (opt.ramBytes input.ctx) 0) %
      2 ^ 64).toNat) ≤ maxRam
    omega

end Batch

/-! ## What the search does not see -/

def largeCache : Optimization OptContext := { resultCache with ramBytes := fun _ => 200 }

/-- Fast at the cost of memory, but of no more than a hundred bytes of it. -/
def tightPolicy : RankedPolicy :=
  { mode := .adaptive, guarantees := ⟨.strict, .strict⟩, constraints := ⟨some 100⟩
    priority := ⟨5, 0, 5⟩ }

def tight (opt : Optimization OptContext) : DriverInput :=
  let input := reading opt .new (readings 0 0 0)
  { input with policy := tightPolicy, ctx := { input.ctx with policy := tightPolicy } }

theorem tight_plain : (tight resultCache).Plain := by
  have honly : ∀ opt, Proposable (tight resultCache) opt → opt = resultCache := by
    intro opt hopt
    have hone : opt ∈ [resultCache] := hopt.listed
    exact List.mem_singleton.mp hone
  have hdeclared : ∀ name m, (tight resultCache).catalogue.registry.info name = some m →
      m.conflictsWith = [] := by
    intro name m hm
    obtain ⟨opt, hget, rfl⟩ := Option.map_eq_some_iff.mp hm
    have hone : (OrdMap.insert ∅ "result_cache" resultCache).get name = some opt := hget
    rw [OrdMap.get_insert] at hone
    split_ifs at hone
    · cases hone
      rfl
    · cases hone
  have hapart : ∀ name name', ¬ (tight resultCache).catalogue.registry.Conflict name name' := by
    rintro name name' (⟨m, hm, hmem⟩ | ⟨m, hm, hmem⟩)
    · rw [hdeclared name m hm] at hmem
      cases hmem
    · rw [hdeclared name' m hm] at hmem
      cases hmem
  constructor
  · intro opt hopt
    rw [honly opt hopt]
    rfl
  · exact fun opt _ => ⟨hapart _ _, fun name _ => hapart _ _⟩
  · intro opt opt' hopt hopt' maxRam _
    rw [honly opt hopt, honly opt' hopt']
    exact Int.natCast_nonneg maxRam
  · intro opt hopt
    rw [honly opt hopt]
    decide

/-- A cache larger than the ceiling is proposed, and the controller rejects it. -/
theorem large_cache_rejected : ¬ CarriedOut .new (tight largeCache) := by
  intro h
  have hdecide : ((AdaptiveDriver.new.decide (tight largeCache)).1.map fun x =>
      (x.optimization, x.action)) = [("result_cache", .enable)] := by decide +kernel
  obtain ⟨x, hbatch, hx⟩ := List.map_eq_singleton_iff.mp hdecide
  obtain ⟨hname, haction⟩ := Prod.mk.inj hx
  have hget : (tight largeCache).applyEnv.registry.get x.optimization = some largeCache := by
    rw [hname]
    rfl
  have hrefusal : (tight largeCache).applyEnv.refusal OptimizationController.new.config x.optimization
      largeCache = some .exceedsConstraints := by
    rw [hname]
    decide +kernel
  have hasked : x.action ≠ .disable := by
    rw [haction]
    decide
  have hverdict : applyDecision (tight largeCache).applyEnv idle x ⟨.new, ()⟩ =
      .ok .exceedsConstraints ⟨.new, ()⟩ := applyDecision_refused hget hasked hrefusal
  exact h.gates idle [] [] x hbatch haction ⟨.new, ()⟩ ⟨.new, ()⟩ ⟨.new, ()⟩ ⟨[], []⟩ ⟨[], []⟩ _ rfl rfl
    hverdict (.inr (.inr rfl))

/-- A cache of plans that rests on the cache of results. -/
def planCache : Optimization OptContext :=
  { resultCache with
    metadata :=
      { name := "plan_cache", scopeKind := .global, requiresGuarantees := .any
        prerequisites := ["result_cache"], conflictsWith := [] } }

def caches : Catalogue where
  registry := ((Registry.new.register resultCache).bind (·.register planCache)).getD .new
  profile _ := ⟨"", .instant, ⟨0, 0, 0⟩, fun _ => twiceAsFast 0⟩
  distinct := by decide
  estimated := by
    intro name opt h ctx
    have hget : ((OrdMap.insert ∅ "result_cache" resultCache).insert "plan_cache" planCache).get name =
      some opt := h
    rw [OrdMap.get_insert, OrdMap.get_insert] at hget
    split_ifs at hget
    · cases hget
      rfl
    · cases hget
      rfl
    · cases hget

def onCache : DriverInput :=
  { reading resultCache withCache (readings 0 0 0) with catalogue := caches }

theorem onCache_legal : Legal caches.registry evenPolicy.toPolicy onCache.ctx withCache :=
  legal_new.enable (show caches.registry.get "result_cache" = some resultCache from rfl)
    (by decide +kernel) (fun opt hopt => by cases hopt; decide +kernel) "global" .new

/-- The cache of results is enabled, and the cache of plans is left out for want of it. -/
theorem plan_cache_excluded : ¬ CarriedOut .new onCache := by
  intro h
  have hcandidates : ((candidatesOf caches.registry
      ((AdaptiveDriver.new.begun onCache).ranked onCache)).map fun c =>
        (c.name, c.metadata.prerequisites)) = [("plan_cache", ["result_cache"])] := by decide +kernel
  obtain ⟨c, hone, hc⟩ := List.map_eq_singleton_iff.mp hcandidates
  obtain ⟨hname, hprerequisites⟩ := Prod.mk.inj hc
  have hheld : ∀ p ∈ c.metadata.prerequisites, onCache.current.isEnabledAnywhere p := by
    rw [hprerequisites]
    decide +kernel
  have hsearch := h.search
  rw [show onCache.catalogue.registry = caches.registry from rfl, hone] at hsearch
  have hfound := hsearch c (List.mem_singleton_self c) hheld 1
    (by rw [chosenBy_one]; exact List.mem_singleton_self c) "result_cache"
    (by rw [hprerequisites]; exact List.mem_singleton_self _)
  rw [chosenBy_one, List.map_singleton, hname] at hfound
  revert hfound
  decide

end Adabt.Opt
