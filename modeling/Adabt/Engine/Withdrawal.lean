import Adabt.Engine.Optimizations
import Adabt.Opt.Reversal

/-! # What the per-field plans take back

An index plan takes back what it did unless the index was there before, and a
clustering plan unless the collection was clustered before. Plans over different
indexes, or over different collections, do not meet. -/

set_option autoImplicit false

namespace Adabt.Engine.Arrangement
open Adabt.Core Adabt.Indexing Adabt.Library Adabt.Opt

def indexPlan (collection field : String) (kind : IndexKind) : ChangePlan :=
  ⟨[.createIndex collection field kind], [.dropIndex collection field kind]⟩

def clusterPlan (collection field : String) : ChangePlan :=
  ⟨[.setClusterField collection field], [.clearClusterField collection]⟩

/-! ## The actions as changes -/

theorem carry_one (a : Action) (s : Arrangement) :
    actionSink.carry [a] s = exec (actionSink.applyAction a) s := by
  change exec (EStateM.bind (actionSink.applyAction a) fun _ => pure ()) s = _
  unfold exec EStateM.bind
  cases actionSink.applyAction a s <;> rfl

theorem carry_createIndex (collection field : String) (kind : IndexKind) (s : Arrangement) :
    actionSink.carry [.createIndex collection field kind] s =
      if collection ∈ s.collections ∧ (collection, field, kind) ∉ s.indexes then
        { s with indexes := s.indexes ++ [(collection, field, kind)] } else s := by
  rw [carry_one]
  change exec (createIndex collection field kind) s = _
  apply Post.exec (I := (· = _))
  unfold createIndex
  rw [post_bind, post_get]
  by_cases hc : collection ∈ s.collections
  · rw [if_neg (not_not.mpr hc)]
    by_cases hi : (collection, field, kind) ∈ s.indexes
    · rw [if_pos hi, if_neg fun h => h.2 hi]
      rfl
    · rw [if_neg hi, if_pos ⟨hc, hi⟩]
      rfl
  · rw [if_pos hc, if_neg fun h => hc h.1]
    rfl

theorem carry_dropIndex (collection field : String) (kind : IndexKind) (s : Arrangement) :
    actionSink.carry [.dropIndex collection field kind] s =
      { s with indexes := s.indexes.filter fun i => i ≠ (collection, field, kind) } := by
  rw [carry_one]
  rfl

theorem carry_setClusterField (collection field : String) (s : Arrangement) :
    actionSink.carry [.setClusterField collection field] s = if collection ∈ s.collections then
      { s with clusterFields := s.clusterFields.insert collection field } else s := by
  rw [carry_one]
  change exec (declareClusterField collection field) s = _
  apply Post.exec (I := (· = _))
  unfold declareClusterField
  rw [post_bind, post_get]
  by_cases hc : collection ∈ s.collections
  · rw [if_neg (not_not.mpr hc), if_pos hc]
    rfl
  · rw [if_pos hc, if_neg hc]
    rfl

theorem carry_clearClusterField (collection : String) (s : Arrangement) :
    actionSink.carry [.clearClusterField collection] s = if collection ∈ s.collections then
      { s with clusterFields := s.clusterFields.erase collection } else s := by
  rw [carry_one]
  change exec (clearClusterField collection) s = _
  apply Post.exec (I := (· = _))
  unfold clearClusterField
  rw [post_bind, post_get]
  by_cases hc : collection ∈ s.collections
  · rw [if_neg (not_not.mpr hc), if_pos hc]
    rfl
  · rw [if_pos hc, if_neg hc]
    rfl

/-! ## What is restored -/

theorem index_restores {collection field : String} {kind : IndexKind} {s : Arrangement}
    (hc : collection ∈ s.collections) :
    actionSink.carry (indexPlan collection field kind).revert
        (actionSink.carry (indexPlan collection field kind).apply s) = s ↔
      (collection, field, kind) ∉ s.indexes := by
  rw [indexPlan, carry_createIndex, carry_dropIndex]
  by_cases hi : (collection, field, kind) ∈ s.indexes
  · rw [if_neg fun h => h.2 hi]
    refine iff_of_false (fun h => ?_) (not_not.mpr hi)
    rw [← h] at hi
    simp at hi
  · rw [if_pos ⟨hc, hi⟩]
    refine iff_of_true ?_ hi
    have hsame : (s.indexes ++ [(collection, field, kind)]).filter
        (fun i => i ≠ (collection, field, kind)) = s.indexes := by
      rw [List.filter_append, List.filter_eq_self.mpr]
      · simp
      · intro i hmem
        rw [decide_eq_true_eq]
        rintro rfl
        exact hi hmem
    rw [hsame]

theorem cluster_restores {collection field : String} {s : Arrangement}
    (hc : collection ∈ s.collections) :
    actionSink.carry (clusterPlan collection field).revert
        (actionSink.carry (clusterPlan collection field).apply s) = s ↔
      s.clusterFields.get collection = none := by
  rw [clusterPlan, carry_setClusterField, carry_clearClusterField, if_pos hc, if_pos hc]
  constructor
  · intro h
    rw [← h]
    exact OrdMap.get_erase_self _ _
  · intro hnone
    have hsame : (s.clusterFields.insert collection field).erase collection = s.clusterFields := by
      ext k : 1
      rw [OrdMap.get_erase, OrdMap.get_insert]
      split_ifs with hk
      · rw [hk, hnone]
      · rfl
    rw [hsame]

/-! ## What does not meet -/

theorem index_passes {c f c' f' : String} {k k' : IndexKind} (h : (c, f, k) ≠ (c', f', k')) :
    (actionSink.effect (indexPlan c f k)).Passes (actionSink.effect (indexPlan c' f' k')) := by
  constructor
  · intro s
    simp only [ActionSink.effect, indexPlan, carry_createIndex, carry_dropIndex]
    have hmem : (c', f', k') ∈ s.indexes.filter (fun i => i ≠ (c, f, k)) ↔
        (c', f', k') ∈ s.indexes := by
      rw [List.mem_filter, decide_eq_true_eq, and_iff_left h.symm]
    by_cases hnew : c' ∈ s.collections ∧ (c', f', k') ∉ s.indexes
    · rw [if_pos hnew, if_pos ⟨hnew.1, fun hm => hnew.2 (hmem.mp hm)⟩, List.filter_append]
      simp [h.symm]
    · rw [if_neg hnew, if_neg fun hm => hnew ⟨hm.1, fun hi => hm.2 (hmem.mpr hi)⟩]
  · intro s
    simp only [ActionSink.effect, indexPlan, carry_dropIndex, List.filter_filter, Bool.and_comm]

theorem cluster_passes {c f c' f' : String} (h : c ≠ c') :
    (actionSink.effect (clusterPlan c f)).Passes (actionSink.effect (clusterPlan c' f')) := by
  constructor
  · intro s
    simp only [ActionSink.effect, clusterPlan, carry_setClusterField, carry_clearClusterField]
    have hswap : (s.clusterFields.insert c' f').erase c = (s.clusterFields.erase c).insert c' f' := by
      ext k : 1
      simp only [OrdMap.get_erase, OrdMap.get_insert]
      split_ifs with h₁ h₂
      · exact absurd (h₁.symm.trans h₂) h
      · rfl
      · rfl
      · rfl
    split_ifs <;> simp_all
  · intro s
    simp only [ActionSink.effect, clusterPlan, carry_clearClusterField]
    have hswap : (s.clusterFields.erase c').erase c = (s.clusterFields.erase c).erase c' := by
      ext k : 1
      simp only [OrdMap.get_erase]
      split_ifs <;> rfl
    split_ifs <;> simp_all

theorem index_passes_cluster (c f c' f' : String) (k : IndexKind) :
    (actionSink.effect (indexPlan c f k)).Passes (actionSink.effect (clusterPlan c' f')) := by
  constructor
  · intro s
    simp only [ActionSink.effect, indexPlan, clusterPlan, carry_dropIndex, carry_setClusterField]
    split_ifs <;> rfl
  · intro s
    simp only [ActionSink.effect, indexPlan, clusterPlan, carry_dropIndex, carry_clearClusterField]
    split_ifs <;> rfl

theorem cluster_passes_index (c f c' f' : String) (k : IndexKind) :
    (actionSink.effect (clusterPlan c f)).Passes (actionSink.effect (indexPlan c' f' k)) := by
  constructor
  · intro s
    simp only [ActionSink.effect, indexPlan, clusterPlan, carry_createIndex, carry_clearClusterField]
    split_ifs <;> simp_all
  · intro s
    simp only [ActionSink.effect, indexPlan, clusterPlan, carry_dropIndex, carry_clearClusterField]
    split_ifs <;> rfl

/-! ## What may be recorded -/

theorem succeeds_createIndex {collection field : String} {kind : IndexKind} {s : Arrangement}
    (hc : collection ∈ s.collections) :
    actionSink.Succeeds (indexPlan collection field kind).apply s := by
  change Post (createIndex collection field kind >>= fun _ => pure ()) s _ _
  unfold createIndex
  rw [post_bind, post_bind, post_get, if_neg (not_not.mpr hc)]
  split_ifs
  · trivial
  · trivial

theorem succeeds_setClusterField {collection field : String} {s : Arrangement}
    (hc : collection ∈ s.collections) :
    actionSink.Succeeds (clusterPlan collection field).apply s := by
  change Post (declareClusterField collection field >>= fun _ => pure ()) s _ _
  unfold declareClusterField
  rw [post_bind, post_bind, post_get, if_neg (not_not.mpr hc)]
  trivial

/-- An index that is not there, of a scope that is not enabled, beside plans for other indexes
and for clustering. -/
theorem recordable_index {d : Decision} {collection field : String} {kind : IndexKind}
    {s : Steered Arrangement} (hc : collection ∈ s.sink.collections)
    (hi : (collection, field, kind) ∉ s.sink.indexes)
    (hfresh : s.controller.config.params d.optimization d.scope = none)
    (hothers : ∀ p ∈ s.controller.applied,
      (∃ c f k, p.2.2 = indexPlan c f k ∧ (c, f, k) ≠ (collection, field, kind)) ∨
      ∃ c f, p.2.2 = clusterPlan c f) :
    Recordable actionSink d (indexPlan collection field kind) s := by
  refine .inr ⟨succeeds_createIndex hc, hfresh, (index_restores hc).mpr hi, ?_⟩
  intro p hp
  rcases hothers p hp with ⟨c, f, k, hplan, hne⟩ | ⟨c, f, hplan⟩
  · rw [hplan]
    exact index_passes hne
  · rw [hplan]
    exact cluster_passes_index c f collection field kind

/-- A collection that is not clustered, beside plans for indexes and for other collections. -/
theorem recordable_cluster {d : Decision} {collection field : String} {s : Steered Arrangement}
    (hc : collection ∈ s.sink.collections) (hnone : s.sink.clusterFields.get collection = none)
    (hfresh : s.controller.config.params d.optimization d.scope = none)
    (hothers : ∀ p ∈ s.controller.applied, (∃ c f k, p.2.2 = indexPlan c f k) ∨
      ∃ c f, p.2.2 = clusterPlan c f ∧ c ≠ collection) :
    Recordable actionSink d (clusterPlan collection field) s := by
  refine .inr ⟨succeeds_setClusterField hc, hfresh, (cluster_restores hc).mpr hnone, ?_⟩
  intro p hp
  rcases hothers p hp with ⟨c, f, k, hplan⟩ | ⟨c, f, hplan, hne⟩
  · rw [hplan]
    exact index_passes_cluster c f collection field k
  · rw [hplan]
    exact cluster_passes hne

/-! ## A course of decisions -/

/-- Users are looked up by country, and asked for by ranges of age. -/
def seasoned : OptContext where
  telemetry :=
    { fieldFilters := (OrdMap.insert ∅ (toLex ("users", "country")) 8).insert
        (toLex ("users", "age")) 10
      equalityFilters := OrdMap.insert ∅ (toLex ("users", "country")) 8 }
  collections := [("users", 6000)]
  filteredFields := [("users", "country", 8), ("users", "age", 10)]
  existingIndexes := [("users", "email", .hash)]

def perFieldOpts : Registry OptContext :=
  ((Registry.new.register autoIndexOpt).bind (·.register clusteredSortOpt)).getD .new

def unhindered : Policy := ⟨.adaptive, ⟨.strict, .strict⟩, ⟨none⟩⟩

def emailIndexed : Arrangement := ⟨["users"], [("users", "email", .hash)], ∅⟩

def decideOn (name scope : String) (action : DecisionAction) : Turn OptContext :=
  .decision ⟨name, scope, action, .new, ""⟩

/-- Disabling an index that was there before it was asked for drops it. -/
theorem index_lost :
    ¬ Balanced actionSink emailIndexed
      (run (turn perFieldOpts unhindered actionSink) ⟨seasoned, .new, emailIndexed⟩
        [decideOn "auto_index" "users.email" .enable,
          decideOn "auto_index" "users.email" .disable]).steered := by
  intro h
  have hkept := h.kept
  revert hkept
  decide +kernel

/-- An index and a clustering, the index taken back first. -/
theorem country_taken_back :
    Balanced actionSink emailIndexed
      (run (turn perFieldOpts unhindered actionSink) ⟨seasoned, .new, emailIndexed⟩
        [decideOn "auto_index" "users.country" .enable,
          decideOn "clustered_sort" "users.age" .enable,
          decideOn "auto_index" "users.country" .disable]).steered := by
  apply (disable_undoes perFieldOpts unhindered actionSink seasoned emailIndexed
    [decideOn "auto_index" "users.country" .enable,
      decideOn "clustered_sort" "users.age" .enable,
      decideOn "auto_index" "users.country" .disable] ?_).1
  refine ⟨?_, ?_, ?_, trivial⟩
  · intro opt hopt _
    cases hopt
    refine ⟨rfl, fun _ => ?_⟩
    change Recordable actionSink _ (indexPlan "users" "country" .hash) _
    apply recordable_index
    · decide
    · decide
    · rfl
    · intro p hp
      cases hp
  · intro opt hopt _
    cases hopt
    refine ⟨rfl, fun _ => ?_⟩
    change Recordable actionSink _ (clusterPlan "users" "age") _
    apply recordable_cluster
    · decide +kernel
    · decide +kernel
    · decide +kernel
    · intro p hp
      have happlied : p ∈ [("auto_index", "users.country", indexPlan "users" "country" .hash)] := by
        convert hp
        decide +kernel
      rw [List.mem_singleton.mp happlied]
      exact .inl ⟨"users", "country", .hash, rfl⟩
  · intro opt hopt
    refine .inl ⟨by decide +kernel, ?_⟩
    intro plan hp
    have happlied : ("auto_index", "users.country", plan) ∈
        [("auto_index", "users.country", indexPlan "users" "country" .hash),
          ("clustered_sort", "users.age", clusterPlan "users" "age")] := by
      convert hp
      decide +kernel
    have hplan : plan = indexPlan "users" "country" .hash := by simpa using happlied
    rw [hplan]
    trivial

end Adabt.Engine.Arrangement
