import Adabt.Library.Selection
import Adabt.Opt.Adaptive
import Mathlib.Algebra.Order.Ring.Rat
import Mathlib.Data.Prod.Lex

/-! # The joint search, over any scores

The search with the arithmetic of the scores as a parameter: with floats it is the
search of the driver, and with rationals it finds an exact optimum, the cheaper one
where two score the same. -/

set_option autoImplicit false

namespace Adabt.Opt
open Adabt.Core Adabt.Library

/-! ## The search -/

/-- What the search does with scores. -/
structure ScoreArith (σ : Type) where
  zero : σ
  add : σ → σ → σ
  gt : σ → σ → Bool
  eq : σ → σ → Bool

def floatScores : ScoreArith F64 := ⟨F64.zero, F64.add, F64.gt, F64.beq⟩

def rationalScores : ScoreArith ℚ := ⟨0, (· + ·), fun a b => b < a, fun a b => a = b⟩

structure ScoredCandidate (σ : Type) where
  key : String
  name : String
  metadata : OptMeta
  soloScore : σ
  ramBytes : ℤ

structure ScoredCombination (σ : Type) where
  keys : List String
  total : σ
  ramBytes : ℤ
  deriving DecidableEq

namespace ScoreArith

variable {σ : Type} (A : ScoreArith σ)

def chosenBy {α : Type} (mask : ℕ) (xs : List α) : List α :=
  (xs.zipIdx.filter fun c => mask.testBit c.2).map (·.1)

def combinationOf (chosen : List (ScoredCandidate σ)) : ScoredCombination σ where
  keys := chosen.map (·.key)
  total := (chosen.map (·.soloScore)).foldl A.add A.zero
  ramBytes := (chosen.map fun c => max c.ramBytes 0).sum

def betterThan (c b : ScoredCombination σ) : Bool :=
  A.gt c.total b.total || (A.eq c.total b.total && c.ramBytes < b.ramBytes)

def tryMask (candidates : List (ScoredCandidate σ)) (ceiling : Option ℕ)
    (best : Option (ScoredCombination σ)) (mask : ℕ) : Option (ScoredCombination σ) :=
  let chosen := chosenBy mask candidates
  if chosen.isEmpty then best
  else if !isCoherent (chosen.map fun c => (c.name, c.metadata)) then best
  else
    let c := A.combinationOf chosen
    if !affordable ceiling c.ramBytes then best
    else keepBest A.betterThan best c

def bestCombination (candidates : List (ScoredCandidate σ)) (policy : Policy) :
    Option (ScoredCombination σ) :=
  if candidates.isEmpty || maxExhaustive < candidates.length then none
  else (List.range (2 ^ candidates.length)).foldl
    (A.tryMask candidates policy.constraints.maxRamBytes) none

end ScoreArith

/-! ## With floats -/

def Candidate.scored (c : Candidate) : ScoredCandidate F64 :=
  ⟨c.key, c.name, c.metadata, c.soloScore, c.ramBytes⟩

def Combination.scored (c : Combination) : ScoredCombination F64 := ⟨c.keys, c.total, c.ramBytes⟩

theorem chosenBy_scored (mask : ℕ) (candidates : List Candidate) :
    ScoreArith.chosenBy mask (candidates.map Candidate.scored) =
      (chosenBy mask candidates).map Candidate.scored := by
  rw [ScoreArith.chosenBy, chosenBy, List.zipIdx_map, List.filter_map, List.map_map, List.map_map]
  rfl

theorem combinationOf_scored (chosen : List Candidate) :
    floatScores.combinationOf (chosen.map Candidate.scored) = (combinationOf chosen).scored := by
  simp only [ScoreArith.combinationOf, combinationOf, Combination.scored, List.map_map]
  rfl

theorem tryMask_scored (candidates : List Candidate) (ceiling : Option ℕ)
    (best : Option Combination) (mask : ℕ) :
    floatScores.tryMask (candidates.map Candidate.scored) ceiling (best.map Combination.scored) mask =
      (tryMask candidates ceiling best mask).map Combination.scored := by
  rw [ScoreArith.tryMask, tryMask, chosenBy_scored]
  dsimp only
  rw [combinationOf_scored, List.map_map, List.isEmpty_map]
  have hmetas : (fun c : ScoredCandidate F64 => (c.name, c.metadata)) ∘ Candidate.scored =
      fun c => (c.name, c.metadata) := rfl
  have hram : ∀ c : Combination, c.scored.ramBytes = c.ramBytes := fun c => rfl
  have hbetter : ∀ c b : Combination,
      floatScores.betterThan c.scored b.scored = betterThan c (some b) := fun c b => rfl
  rw [hmetas, hram]
  split_ifs with hempty hincoherent haffordable hbest
  · rfl
  · rfl
  · rfl
  · cases best with
    | none => rfl
    | some b => exact if_pos ((hbetter _ b).trans hbest)
  · cases best with
    | none => exact absurd rfl hbest
    | some b => exact if_neg fun h => hbest ((hbetter _ b).symm.trans h)

/-- With the arithmetic of floats it is the search of the driver. -/
theorem bestCombination_scored (candidates : List Candidate) (policy : Policy) :
    floatScores.bestCombination (candidates.map Candidate.scored) policy =
      (bestCombination candidates policy).map Combination.scored := by
  have hfold : ∀ (masks : List ℕ) (best : Option Combination),
      masks.foldl (floatScores.tryMask (candidates.map Candidate.scored)
        policy.constraints.maxRamBytes) (best.map Combination.scored) =
      (masks.foldl (tryMask candidates policy.constraints.maxRamBytes) best).map
        Combination.scored := by
    intro masks
    induction masks with
    | nil => exact fun best => rfl
    | cons mask masks ih =>
      intro best
      rw [List.foldl_cons, List.foldl_cons, tryMask_scored, ih]
  rw [ScoreArith.bestCombination, bestCombination, List.isEmpty_map, List.length_map]
  split_ifs
  · rfl
  · exact hfold _ none

/-! ## With rationals -/

/-- Some of the candidates that may be on together: no name among them conflicts with one of
them, every prerequisite is among them, and they fit the ceiling. -/
structure Feasible {σ : Type} (candidates : List (ScoredCandidate σ)) (ceiling : Option ℕ)
    (chosen : List (ScoredCandidate σ)) : Prop where
  among : chosen.Sublist candidates
  some : chosen ≠ []
  peaceful : ∀ c ∈ chosen, ∀ o ∈ chosen, o.name ∉ c.metadata.conflictsWith
  complete : ∀ c ∈ chosen, ∀ p ∈ c.metadata.prerequisites, ∃ o ∈ chosen, o.name = p
  fits : ∀ limit ∈ ceiling, (chosen.map (·.ramBytes)).sum ≤ limit

def totalScore (chosen : List (ScoredCandidate ℚ)) : ℚ := (chosen.map (·.soloScore)).sum

def totalRam {σ : Type} (chosen : List (ScoredCandidate σ)) : ℤ := (chosen.map (·.ramBytes)).sum

namespace ScoreArith

variable {α : Type}

theorem chosenBy_cons (mask : ℕ) (x : α) (xs : List α) :
    chosenBy mask (x :: xs) =
      if mask.testBit 0 then x :: chosenBy (mask / 2) xs else chosenBy (mask / 2) xs := by
  have hbit : (fun c : α × ℕ => mask.testBit c.2) ∘ Prod.map id (· + 1) =
      fun c => (mask / 2).testBit c.2 := by
    funext c
    exact Nat.testBit_add_one mask c.2
  have hrest : ((xs.zipIdx.map (Prod.map id (· + 1))).filter fun c => mask.testBit c.2).map (·.1) =
      chosenBy (mask / 2) xs := by
    rw [chosenBy, List.filter_map, List.map_map, hbit]
    rfl
  rw [chosenBy, List.zipIdx_cons', List.filter_cons]
  dsimp only
  split_ifs
  · rw [List.map_cons, hrest]
  · exact hrest

theorem chosenBy_sublist (mask : ℕ) (xs : List α) : (chosenBy mask xs).Sublist xs := by
  have h := (List.filter_sublist (p := fun c : α × ℕ => mask.testBit c.2) (l := xs.zipIdx)).map (·.1)
  rwa [List.zipIdx_map_fst] at h

/-- Some mask chooses them. -/
theorem exists_mask {xs ys : List α} (h : ys.Sublist xs) :
    ∃ mask < 2 ^ xs.length, chosenBy mask xs = ys := by
  induction h with
  | slnil => exact ⟨0, Nat.one_pos, rfl⟩
  | @cons ys xs x _ ih =>
    obtain ⟨mask, hlt, hmask⟩ := ih
    refine ⟨2 * mask, by rw [List.length_cons, Nat.pow_succ]; omega, ?_⟩
    have hbit : (2 * mask).testBit 0 = false := by rw [Nat.testBit_zero]; simp
    have hhalf : 2 * mask / 2 = mask := by omega
    rw [chosenBy_cons, hbit, hhalf, hmask]
    rfl
  | @cons_cons ys xs x _ ih =>
    obtain ⟨mask, hlt, hmask⟩ := ih
    refine ⟨2 * mask + 1, by rw [List.length_cons, Nat.pow_succ]; omega, ?_⟩
    have hbit : (2 * mask + 1).testBit 0 = true := by rw [Nat.testBit_zero]; simp
    have hhalf : (2 * mask + 1) / 2 = mask := by omega
    rw [chosenBy_cons, hbit, hhalf, hmask]
    rfl

/-! What a mask stands for, where what it chooses may be on together. -/

variable {σ : Type} (A : ScoreArith σ)

def combined (candidates : List (ScoredCandidate σ)) (ceiling : Option ℕ) (mask : ℕ) :
    Option (ScoredCombination σ) :=
  let chosen := chosenBy mask candidates
  if chosen.isEmpty || !isCoherent (chosen.map fun c => (c.name, c.metadata)) ||
    !affordable ceiling (A.combinationOf chosen).ramBytes then none
  else some (A.combinationOf chosen)

theorem tryMask_eq (candidates : List (ScoredCandidate σ)) (ceiling : Option ℕ)
    (best : Option (ScoredCombination σ)) (mask : ℕ) :
    A.tryMask candidates ceiling best mask =
      (A.combined candidates ceiling mask).elim best (keepBest A.betterThan best) := by
  rw [tryMask, combined]
  dsimp only
  cases (chosenBy mask candidates).isEmpty
  · cases isCoherent ((chosenBy mask candidates).map fun c => (c.name, c.metadata))
    · rfl
    · cases affordable ceiling (A.combinationOf (chosenBy mask candidates)).ramBytes
      · rfl
      · rfl
  · rfl

theorem foldl_tryMask (candidates : List (ScoredCandidate σ)) (ceiling : Option ℕ)
    (masks : List ℕ) (best : Option (ScoredCombination σ)) :
    masks.foldl (A.tryMask candidates ceiling) best =
      (masks.filterMap (A.combined candidates ceiling)).foldl (keepBest A.betterThan) best := by
  induction masks generalizing best with
  | nil => rfl
  | cons mask masks ih =>
    rw [List.foldl_cons, tryMask_eq, ih]
    cases hmask : A.combined candidates ceiling mask with
    | none => rw [List.filterMap_cons_none hmask, Option.elim_none]
    | some c => rw [List.filterMap_cons_some hmask, Option.elim_some, List.foldl_cons]

end ScoreArith

theorem isCoherent_iff {σ : Type} (chosen : List (ScoredCandidate σ)) :
    isCoherent (chosen.map fun c => (c.name, c.metadata)) = true ↔
      (∀ c ∈ chosen, ∀ o ∈ chosen, o.name ∉ c.metadata.conflictsWith) ∧
        ∀ c ∈ chosen, ∀ p ∈ c.metadata.prerequisites, ∃ o ∈ chosen, o.name = p := by
  have hnames : (chosen.map fun c => (c.name, c.metadata)).map (·.1) = chosen.map (·.name) := by
    rw [List.map_map]
    rfl
  rw [isCoherent, hnames]
  simp only [List.all_eq_true, List.mem_map, Bool.and_eq_true, decide_eq_true_eq,
    forall_exists_index, and_imp, forall_apply_eq_imp_iff₂, not_exists, not_and]
  constructor
  · intro h
    exact ⟨fun c hc o ho hconflict => (h c hc).1 o.name hconflict o ho rfl, fun c hc => (h c hc).2⟩
  · intro h c hc
    refine ⟨fun n hn o ho hname => h.1 c hc o ho ?_, h.2 c hc⟩
    rw [hname]
    exact hn

theorem affordable_iff {ceiling : Option ℕ} {ram : ℤ} (hnonneg : 0 ≤ ram) (hlt : ram < 2 ^ 63) :
    affordable ceiling ram = true ↔ ∀ limit ∈ ceiling, ram ≤ limit := by
  cases ceiling with
  | none => simp [affordable]
  | some limit =>
    have hmod : ram % 2 ^ 64 = ram := Int.emod_eq_of_lt hnonneg (by omega)
    simp only [affordable, hmod, Option.mem_some_iff, forall_eq', Bool.not_eq_true',
      decide_eq_false_iff_not]
    omega

section Exact

variable {candidates : List (ScoredCandidate ℚ)} (hram : ∀ c ∈ candidates, 0 ≤ c.ramBytes)
include hram

theorem combinationOf_sublist {chosen : List (ScoredCandidate ℚ)} (h : chosen.Sublist candidates) :
    rationalScores.combinationOf chosen = ⟨chosen.map (·.key), totalScore chosen, totalRam chosen⟩ := by
  have hmax : (chosen.map fun c => max c.ramBytes 0) = chosen.map (·.ramBytes) :=
    List.map_congr_left fun c hc => max_eq_left (hram c (h.subset hc))
  have htotal : (chosen.map (·.soloScore)).foldl rationalScores.add rationalScores.zero =
      totalScore chosen := List.sum_eq_foldl.symm
  rw [ScoreArith.combinationOf, hmax, htotal, totalRam]

theorem totalRam_nonneg {chosen : List (ScoredCandidate ℚ)} (h : chosen.Sublist candidates) :
    0 ≤ totalRam chosen := by
  refine List.sum_nonneg fun x hx => ?_
  obtain ⟨c, hc, rfl⟩ := List.mem_map.mp hx
  exact hram c (h.subset hc)

theorem totalRam_le {chosen : List (ScoredCandidate ℚ)} (h : chosen.Sublist candidates) :
    totalRam chosen ≤ totalRam candidates := by
  refine (h.map (·.ramBytes)).sum_le_sum fun x hx => ?_
  obtain ⟨c, hc, rfl⟩ := List.mem_map.mp hx
  exact hram c hc

/-- The masks stand for the sublists that may be on together. -/
theorem mem_combined (hsum : totalRam candidates < 2 ^ 63) (ceiling : Option ℕ)
    (b : ScoredCombination ℚ) :
    b ∈ (List.range (2 ^ candidates.length)).filterMap (rationalScores.combined candidates ceiling) ↔
      ∃ chosen, Feasible candidates ceiling chosen ∧
        b = ⟨chosen.map (·.key), totalScore chosen, totalRam chosen⟩ := by
  have hcombined : ∀ mask, rationalScores.combined candidates ceiling mask = some b ↔
      Feasible candidates ceiling (ScoreArith.chosenBy mask candidates) ∧
        rationalScores.combinationOf (ScoreArith.chosenBy mask candidates) = b := by
    intro mask
    have hamong := ScoreArith.chosenBy_sublist mask candidates
    have hfits : affordable ceiling (totalRam (ScoreArith.chosenBy mask candidates)) = true ↔
        ∀ limit ∈ ceiling, totalRam (ScoreArith.chosenBy mask candidates) ≤ limit :=
      affordable_iff (totalRam_nonneg hram hamong) ((totalRam_le hram hamong).trans_lt hsum)
    have hcoherent := isCoherent_iff (ScoreArith.chosenBy mask candidates)
    have hfeasible : Feasible candidates ceiling (ScoreArith.chosenBy mask candidates) ↔
        (ScoreArith.chosenBy mask candidates).isEmpty = false ∧
          isCoherent ((ScoreArith.chosenBy mask candidates).map fun c => (c.name, c.metadata)) = true ∧
          affordable ceiling (totalRam (ScoreArith.chosenBy mask candidates)) = true := by
      rw [hcoherent, hfits, List.isEmpty_eq_false_iff]
      constructor
      · exact fun h => ⟨h.some, ⟨h.peaceful, h.complete⟩, h.fits⟩
      · exact fun h => ⟨hamong, h.1, h.2.1.1, h.2.1.2, h.2.2⟩
    rw [hfeasible, ScoreArith.combined, combinationOf_sublist hram hamong]
    cases (ScoreArith.chosenBy mask candidates).isEmpty <;>
      cases isCoherent ((ScoreArith.chosenBy mask candidates).map fun c => (c.name, c.metadata)) <;>
        cases affordable ceiling (totalRam (ScoreArith.chosenBy mask candidates)) <;> simp
  simp only [List.mem_filterMap, List.mem_range, hcombined]
  constructor
  · rintro ⟨mask, -, hfeasible, hb⟩
    exact ⟨_, hfeasible, hb ▸ combinationOf_sublist hram hfeasible.among⟩
  · rintro ⟨chosen, hfeasible, hb⟩
    obtain ⟨mask, hlt, hmask⟩ := ScoreArith.exists_mask hfeasible.among
    refine ⟨mask, hlt, ?_⟩
    rw [hmask]
    exact ⟨hfeasible, (combinationOf_sublist hram hfeasible.among).trans hb.symm⟩

end Exact

/-- A better score, and at the same score less memory. -/
def merit (b : ScoredCombination ℚ) : Lex (ℚ × ℤᵒᵈ) := toLex (b.total, OrderDual.toDual b.ramBytes)

theorem betterThan_iff (c b : ScoredCombination ℚ) :
    rationalScores.betterThan c b = true ↔ merit b < merit c := by
  rw [merit, merit, Prod.Lex.toLex_lt_toLex]
  simp only [ScoreArith.betterThan, rationalScores, Bool.or_eq_true, Bool.and_eq_true,
    decide_eq_true_eq, OrderDual.toDual_lt_toDual]
  rw [eq_comm]

/-- Nothing is found only where nothing may be on. What is found may be on, scores no less
than anything else that may be, and needs no more memory than what scores the same. -/
theorem bestCombination_optimal (candidates : List (ScoredCandidate ℚ)) (policy : Policy)
    (hlen : candidates.length ≤ maxExhaustive) (hram : ∀ c ∈ candidates, 0 ≤ c.ramBytes)
    (hsum : totalRam candidates < 2 ^ 63) :
    (rationalScores.bestCombination candidates policy = none ↔
      ∀ chosen, ¬ Feasible candidates policy.constraints.maxRamBytes chosen) ∧
    ∀ b, rationalScores.bestCombination candidates policy = some b →
      ∃ chosen, Feasible candidates policy.constraints.maxRamBytes chosen ∧
        b.keys = chosen.map (·.key) ∧ b.total = totalScore chosen ∧ b.ramBytes = totalRam chosen ∧
        ∀ other, Feasible candidates policy.constraints.maxRamBytes other →
          totalScore other ≤ totalScore chosen ∧
            (totalScore other = totalScore chosen → totalRam chosen ≤ totalRam other) := by
  have hmem := mem_combined hram hsum policy.constraints.maxRamBytes
  have hfold : rationalScores.bestCombination candidates policy =
      ((List.range (2 ^ candidates.length)).filterMap
        (rationalScores.combined candidates policy.constraints.maxRamBytes)).foldl
          (keepBest rationalScores.betterThan) none := by
    cases candidates with
    | nil => rfl
    | cons c rest =>
      rw [ScoreArith.bestCombination, if_neg (by simpa using hlen)]
      exact ScoreArith.foldl_tryMask _ _ _ _ _
  obtain ⟨hnone, hbest⟩ := foldl_keepBest betterThan_iff ((List.range (2 ^ candidates.length)).filterMap
    (rationalScores.combined candidates policy.constraints.maxRamBytes))
  rw [hfold]
  constructor
  · rw [hnone, List.eq_nil_iff_forall_not_mem]
    constructor
    · exact fun h chosen hchosen => h _ ((hmem _).mpr ⟨chosen, hchosen, rfl⟩)
    · intro h b hb
      obtain ⟨chosen, hchosen, -⟩ := (hmem b).mp hb
      exact h chosen hchosen
  · intro b hb
    obtain ⟨hfound, hmax⟩ := hbest b hb
    obtain ⟨chosen, hchosen, rfl⟩ := (hmem b).mp hfound
    refine ⟨chosen, hchosen, rfl, rfl, rfl, fun other hother => ?_⟩
    have hle := hmax _ ((hmem _).mpr ⟨other, hother, rfl⟩)
    rw [merit, merit, Prod.Lex.toLex_le_toLex] at hle
    rcases hle with hlt | ⟨heq, hle⟩
    · exact ⟨le_of_lt hlt, fun heq => absurd heq (ne_of_lt hlt)⟩
    · exact ⟨le_of_eq heq, fun _ => hle⟩

/-- Two cheap ones and not the one that scores best alone. -/
def sharedBudget : List (ScoredCandidate ℚ) :=
  [("big", 4, 100), ("c1", 5 / 2, 50), ("c2", 5 / 2, 50)].map fun (name, score, ram) =>
    { key := name, name, soloScore := score, ramBytes := ram
      metadata :=
        { name, scopeKind := .global, requiresGuarantees := .any, prerequisites := []
          conflictsWith := [] } }

theorem shared_budget_optimal :
    ∃ chosen, Feasible sharedBudget (some 100) chosen ∧ ["c1", "c2"] = chosen.map (·.key) ∧
      5 = totalScore chosen ∧ 100 = totalRam chosen ∧
      ∀ other, Feasible sharedBudget (some 100) other → totalScore other ≤ totalScore chosen ∧
        (totalScore other = totalScore chosen → totalRam chosen ≤ totalRam other) :=
  (bestCombination_optimal sharedBudget ⟨.adaptive, ⟨.strict, .strict⟩, ⟨some 100⟩⟩ (by decide)
    (by decide) (by decide)).2 ⟨["c1", "c2"], 5, 100⟩ (by decide +kernel)

end Adabt.Opt
